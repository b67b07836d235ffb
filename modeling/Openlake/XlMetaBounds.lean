import Openlake.InlineTail
import Openlake.Lib.Panics
import Openlake.XlMetaRewrite

/-!
# Decoding untrusted metadata

The decoder with its slices, indices and sums checked: each of them panics out of
range. The msgpack reader and the hash are arbitrary functions. No file makes the
decoder panic, so it is the decoder without the checks, and the inline payload of
each record lies behind the checksum.
-/

set_option autoImplicit false

namespace Openlake.XlMetaBounds
open Openlake.Types XlMeta XlMetaRoundTrip XlMetaRewrite VersionIds InlineTail Lib.ByteCodec
open Lib.Panics

def usizeBits : ℕ := 64

def validateErasure (ei : ErasureInfo) (ctx : Ctx) : Checked IoError Unit := do
  lift (refuse (ei.algorithm = "") (ctx.err "algorithm must be non-empty"))
  lift (refuse (ei.dataBlocks = 0) (ctx.err "data_blocks must be >= 1"))
  lift (refuse (ei.parityBlocks > ei.dataBlocks) (ctx.err ("parity_blocks (" ++
    toString ei.parityBlocks ++ ") must be <= data_blocks (" ++ toString ei.dataBlocks ++ ")")))
  let n ← add usizeBits ei.dataBlocks.toNat ei.parityBlocks.toNat
  lift (refuse (n = 0) (ctx.err "data_blocks + parity_blocks must be > 0"))
  lift (refuse (ei.distribution.length ≠ n) (ctx.err ("distribution length (" ++
    toString ei.distribution.length ++ ") must equal data_blocks + parity_blocks (" ++
    toString n ++ ")")))
  lift (refuse (ei.index = 0 ∨ ei.index.toNat > n) (ctx.err ("index (" ++ toString ei.index ++
    ") must be in [1, " ++ toString n ++ "]")))
  lift (refuse (ei.blockSize = 0) (ctx.err "block_size must be > 0"))

def validateDecodedVersion (v : VersionRecord) : Checked IoError Unit := do
  lift (refuse (v.ty > 1) (corrupt ("invalid version type: " ++ toString v.ty)))
  lift (refuse (v.size < 0) (corrupt ("size must be >= 0, got " ++ toString v.size)))
  lift (refuse (v.modTime = 0) (corrupt "mod_time must be set (got 0)"))
  mapErr (fun e => corrupt ("erasure validation: " ++ e.display)) (validateErasure v.erasure .decode)
  lift (refuse (v.ty = 1 ∧ v.parts ≠ []) (corrupt "delete marker must have no parts"))
  lift (refuse (v.ty = 1 ∧ v.size ≠ 0)
    (corrupt ("delete marker must have size 0, got " ++ toString v.size)))
  lift (refuse (v.ty = 1 ∧ v.inlineLength ≠ 0)
    (corrupt "delete marker must have inline_length == 0"))
  lift (refuse (v.ty ≠ 1 ∧ v.size > 0 ∧ v.parts = [])
    (corrupt "non-deleted object with size > 0 must have at least one part"))
  lift (refuse (v.inlineLength > 0 ∧ v.dataDir ≠ nil) (corrupt ("version sets both inline_length>0 and " ++
    "a non-zero data_dir; inline-vs-EC is mutually exclusive")))
  lift (refuse (v.inlineLength > 0 ∧ v.size.toUInt64 ≠ v.inlineLength)
    (corrupt ("inline_length (" ++ toString v.inlineLength ++ ") must equal size (" ++
      toString v.size ++ ") for inline versions")))
  lift (validatePartsDecoded 0 v.parts)

def checkedAdd (a b : UInt64) : Option ℕ :=
  if a.toNat+b.toNat < 2^64 then some (a.toNat+b.toNat) else none

def decodeInline (bytes : Bytes) (crcEnd : ℕ) (v : VersionRecord) :
    Checked IoError (Option (List Bytes)) :=
  if v.inlineLength > 0 then
    match checkedAdd v.inlineOffset v.inlineLength with
    | none => lift (.error (corrupt "inline range overflow"))
    | some hi => do
      lift (refuse (hi > bytes.length-crcEnd) (corrupt ("inline range [" ++
        toString v.inlineOffset.toNat ++ "," ++ toString hi ++ ") exceeds tail length " ++
        toString (bytes.length-crcEnd))))
      let first ← add usizeBits crcEnd v.inlineOffset.toNat
      let last ← add usizeBits crcEnd hi
      let payload ← slice bytes first last
      return some [payload]
  else return none

def decodeRecords (bytes : Bytes) (crcEnd : ℕ) (total : Int32) :
    List VersionRecord → Checked IoError (List DecodedRecord)
  | [] => .ok []
  | v::vs => do
    let inline ← decodeInline bytes crcEnd v
    let rest ← decodeRecords bytes crcEnd total vs
    return { versionId := formatVersionIdBytes v.versionId,
             dataDir := formatDataDirBytes v.dataDir, deleted := v.ty = 1, size := v.size,
             modTimeMs := v.modTime, metadata := v.metadata, metaSys := v.metaSys,
             erasure := v.erasure, parts := v.parts, inline := inline,
             numVersions := total }::rest

def decodeAll (xxh64 : Bytes → UInt64) (fromSlice : Bytes → Except String (List VersionRecord))
    (bytes : Bytes) : Checked IoError (List DecodedRecord) := do
  lift (refuse (bytes.length < headerLen+bin32HeaderLen+crcLen) (corrupt "too short"))
  let head ← slice bytes 0 4
  lift (refuse (head ≠ magic) (corrupt "bad magic"))
  let b4 ← index bytes 4
  let b5 ← index bytes 5
  let b6 ← index bytes 6
  let b7 ← index bytes 7
  let major := leValue [b4,b5]
  let minor := leValue [b6,b7]
  lift (refuse (major ≠ formatMajor)
    (.unsupportedMetadataVersion (UInt32.ofNat major) (UInt32.ofNat formatMajor)))
  lift (refuse (minor ≠ formatMinor) (corrupt ("format minor mismatch: file has " ++
    toString major ++ "." ++ toString minor ++ ", expected " ++ toString formatMajor ++ "." ++
    toString formatMinor)))
  let tag ← index bytes headerLen
  lift (refuse (tag ≠ bin32Tag) (corrupt "missing bin32 header"))
  let lenSlot ← slice bytes (headerLen+1) (headerLen+5)
  let lenBytes ← ofLength 4 lenSlot
  let bodyStart ← add usizeBits headerLen bin32HeaderLen
  let bodyEnd ← add usizeBits bodyStart (beValue lenBytes)
  let crcEnd ← add usizeBits bodyEnd crcLen
  lift (refuse (bytes.length < crcEnd) (corrupt "truncated body or crc"))
  let body ← slice bytes bodyStart bodyEnd
  let crcSlot ← slice bytes bodyEnd crcEnd
  let mark ← index crcSlot 0
  lift (refuse (mark ≠ crcTag) (corrupt "missing crc marker"))
  let crcBytes ← slice crcSlot 1 5
  let storedCrc ← ofLength 4 crcBytes
  lift (refuse ((xxh64 body).toNat%2^32 ≠ beValue storedCrc) (corrupt "crc mismatch"))
  let onDisk ← lift ((fromSlice body).mapError (fun e => corrupt ("decode body: " ++ e)))
  lift (refuse (onDisk = []) (corrupt "empty versions list"))
  let versions := newestFirst onDisk
  versions.forM validateDecodedVersion
  decodeRecords bytes crcEnd (Int32.ofNat versions.length) versions

theorem lift_validateErasure (ei : ErasureInfo) (ctx : Ctx) :
    validateErasure ei ctx = lift (XlMeta.validateErasure ei ctx) := by
  have hsum : ei.dataBlocks.toNat+ei.parityBlocks.toNat < 2^usizeBits := by
    have h1 := ei.dataBlocks.toNat_lt
    have h2 := ei.parityBlocks.toNat_lt
    rw [usizeBits]
    omega
  rw [validateErasure, XlMeta.validateErasure]
  refine lift_bind fun _ _ => lift_bind fun _ _ => lift_bind fun _ _ => ?_
  rw [add_bind hsum]
  exact lift_bind fun _ _ => lift_bind fun _ _ => lift_bind fun _ _ => rfl

theorem lift_validateDecodedVersion (v : VersionRecord) :
    validateDecodedVersion v = lift (XlMeta.validateDecodedVersion v) := by
  rw [validateDecodedVersion, XlMeta.validateDecodedVersion, lift_validateErasure, mapErr_lift]
  refine lift_bind fun _ _ => lift_bind fun _ _ => lift_bind fun _ _ => lift_bind fun _ _ => ?_
  refine lift_bind fun _ _ => lift_bind fun _ _ => lift_bind fun _ _ => lift_bind fun _ _ => ?_
  exact lift_bind fun _ _ => lift_bind fun _ _ => rfl

theorem lift_checkAll (vs : List VersionRecord) :
    vs.forM validateDecodedVersion = lift (checkAll XlMeta.validateDecodedVersion vs) := by
  induction vs with
  | nil => rfl
  | cons v vs ih =>
    rw [List.forM, checkAll, lift_validateDecodedVersion]
    exact lift_bind fun _ _ => ih

theorem lift_decodeInline (bytes : Bytes) (crcEnd : ℕ) (v : VersionRecord)
    (hlen : bytes.length < 2^usizeBits) (hcrc : crcEnd ≤ bytes.length) :
    decodeInline bytes crcEnd v = lift (XlMeta.decodeInline bytes crcEnd v) := by
  rw [decodeInline, XlMeta.decodeInline]
  split_ifs with hpos
  swap
  · rfl
  dsimp only
  rw [checkedAdd]
  by_cases hsum : v.inlineOffset.toNat+v.inlineLength.toNat < 2^64
  swap
  · rw [if_neg hsum, if_pos (Nat.not_lt.mp hsum)]
  rw [if_pos hsum, if_neg (Nat.not_le.mpr hsum)]
  dsimp only
  rw [refuse]
  by_cases hend : v.inlineOffset.toNat+v.inlineLength.toNat > bytes.length-crcEnd
  · rw [if_pos hend, if_pos hend]
    rfl
  · rw [if_neg hend, if_neg hend]
    change (add usizeBits crcEnd v.inlineOffset.toNat >>= _) = _
    rw [add_bind (by omega), add_bind (by omega), slice_bind (by omega) (by omega)]
    rfl

theorem lift_decodeRecords (bytes : Bytes) (crcEnd : ℕ) (total : Int32) (vs : List VersionRecord)
    (hlen : bytes.length < 2^usizeBits) (hcrc : crcEnd ≤ bytes.length) :
    decodeRecords bytes crcEnd total vs = lift (XlMeta.decodeRecords bytes crcEnd total vs) := by
  induction vs with
  | nil => rfl
  | cons v vs ih =>
    rw [decodeRecords, XlMeta.decodeRecords, lift_decodeInline bytes crcEnd v hlen hcrc, ih]
    exact lift_bind fun _ _ => lift_bind fun _ _ => rfl

variable {bytes : Bytes}

theorem bytes_slice_bind {β : Type} {lo hi : ℕ} (h : lo ≤ hi)
    (h' : hi ≤ bytes.length) (g : Bytes → Checked IoError β) :
    (Lib.Panics.slice bytes lo hi >>= g) = g (Lib.ByteCodec.slice bytes lo hi) :=
  slice_bind h h' g

theorem length_slice {lo hi : ℕ} (h : hi ≤ bytes.length) :
    (Lib.ByteCodec.slice bytes lo hi).length = hi-lo := by
  rw [Lib.ByteCodec.slice, List.length_take, List.length_drop]
  omega

theorem slice_slice {lo len a b : ℕ} (h : b ≤ len) :
    Lib.ByteCodec.slice (Lib.ByteCodec.slice bytes lo (lo+len)) a b =
      Lib.ByteCodec.slice bytes (lo+a) (lo+b) := by
  rw [Lib.ByteCodec.slice, Lib.ByteCodec.slice, Lib.ByteCodec.slice, List.drop_take, List.drop_drop,
    List.take_take]
  congr 1
  omega

theorem two_at {i : ℕ} (h : i+1 < bytes.length) :
    [bytes[i],bytes[i+1]] = Lib.ByteCodec.slice bytes i (i+2) := by
  rw [Lib.ByteCodec.slice, Nat.add_sub_cancel_left, List.drop_eq_getElem_cons (by omega),
    List.drop_eq_getElem_cons h, List.take_succ_cons, List.take_succ_cons, List.take_zero]

theorem refuse_getElem {i : ℕ} (h : i < bytes.length) (tag : UInt8) (e : IoError) :
    refuse (bytes[i] ≠ tag) e = refuse (bytes[i]? ≠ some tag) e := by
  simp [refuse, List.getElem?_eq_getElem h]

theorem getElem?_slice_zero (bytes : Bytes) (lo : ℕ) {len : ℕ} (h : 0 < len) :
    (Lib.ByteCodec.slice bytes lo (lo+len))[0]? = bytes[lo]? := by
  rw [Lib.ByteCodec.slice, List.getElem?_take_of_lt (by omega), List.getElem?_drop, Nat.add_zero]

/-- No file makes the decoder panic: it returns what it returns without the checks. -/
theorem lift_decodeAll (c : MetaCodec) (bytes : Bytes) (hlen : bytes.length < 2^usizeBits) :
    decodeAll c.xxh64 c.rmp.decode bytes = lift (XlMeta.decodeAll c bytes) := by
  rw [decodeAll, XlMeta.decodeAll]
  refine lift_bind fun _ hshort => ?_
  rw [refuse_eq_ok, Nat.not_lt] at hshort
  simp only [headerLen, bin32HeaderLen, crcLen] at hshort
  rw [bytes_slice_bind (by omega) (by omega)]
  refine lift_bind fun _ _ => ?_
  rw [index_bind (by omega), index_bind (by omega), index_bind (by omega), index_bind (by omega)]
  rw [two_at, two_at]
  refine lift_bind fun _ _ => lift_bind fun _ _ => ?_
  rw [index_bind (by rw [headerLen]; omega), refuse_getElem]
  refine lift_bind fun _ _ => ?_
  have hfour : (Lib.ByteCodec.slice bytes (headerLen+1) (headerLen+5)).length = 4 :=
    length_slice (by rw [headerLen]; omega)
  -- The body length is a u32, so the ends of body and checksum fit a usize.
  have hbody := beValue_lt (Lib.ByteCodec.slice bytes (headerLen+1) (headerLen+5))
  rw [hfour] at hbody
  have hend : headerLen+bin32HeaderLen+
      beValue (Lib.ByteCodec.slice bytes (headerLen+1) (headerLen+5))+crcLen < 2^usizeBits :=
    lt_of_lt_of_le (Nat.add_lt_add_right (Nat.add_lt_add_left hbody _) _) (by decide)
  rw [bytes_slice_bind (by omega) (by rw [headerLen]; omega), ofLength_bind hfour,
    add_bind (by decide), add_bind (by omega), add_bind hend]
  have hstart := Nat.le_add_right (headerLen+bin32HeaderLen)
    (beValue (Lib.ByteCodec.slice bytes (headerLen+1) (headerLen+5)))
  dsimp only
  generalize headerLen+bin32HeaderLen+
    beValue (Lib.ByteCodec.slice bytes (headerLen+1) (headerLen+5)) = bodyEnd at hstart ⊢
  refine lift_bind fun _ hcrc => ?_
  rw [refuse_eq_ok, Nat.not_lt] at hcrc
  have hslot : (Lib.ByteCodec.slice bytes bodyEnd (bodyEnd+crcLen)).length = 5 := by
    rw [length_slice hcrc, Nat.add_sub_cancel_left, crcLen]
  rw [bytes_slice_bind hstart (by omega), bytes_slice_bind (by omega) hcrc, index_bind (by omega),
    refuse_getElem, getElem?_slice_zero bytes bodyEnd (by decide)]
  refine lift_bind fun _ _ => ?_
  have hdigest : (Lib.ByteCodec.slice bytes (bodyEnd+1) (bodyEnd+5)).length = 4 :=
    (length_slice hcrc).trans (by rw [crcLen]; omega)
  rw [bytes_slice_bind (by omega) hslot.ge, slice_slice (by decide), ofLength_bind hdigest]
  refine lift_bind fun _ _ => lift_bind fun _ _ => lift_bind fun _ _ => ?_
  rw [lift_checkAll]
  exact lift_bind fun _ _ => lift_decodeRecords _ _ _ _ hlen hcrc

/-- A codec with an arbitrary msgpack reader; it writes nothing. -/
def reading (xxh64 : Bytes → UInt64) (fromSlice : Bytes → Except String (List VersionRecord)) :
    MetaCodec :=
  ⟨⟨fun _ => .error "",fromSlice,nofun⟩,xxh64⟩

theorem toNat_of_size {size : Int64} {len : UInt64} (h : 0 ≤ size) (heq : size.toUInt64 = len) :
    (len.toNat : ℤ) = size.toInt := by
  have hlt : size.toUInt64.toNat < 2^64 := size.toUInt64.toNat_lt
  have hint : size.toInt = if 2*size.toUInt64.toNat < 2^64 then (size.toUInt64.toNat : ℤ)
      else (size.toUInt64.toNat : ℤ)-2^64 := size.toBitVec.toInt_eq_toNat_cond
  rw [Int64.le_iff_toInt_le, Int64.toInt_zero] at h
  subst heq
  split_ifs at hint <;> omega

theorem decodedOf_inline {crcEnd : ℕ} (total : Int32) {v : VersionRecord}
    (hcrc : crcEnd ≤ bytes.length) (hvalid : Valid v) (hfits : InlineFits bytes crcEnd v) :
    ∃ lo hi, crcEnd ≤ lo ∧ lo ≤ hi ∧ hi ≤ bytes.length ∧
      ((decodedOf bytes crcEnd total v).inline.getD []).flatten = Lib.ByteCodec.slice bytes lo hi ∧
      (lo < hi → ((hi-lo : ℕ) : ℤ) = v.size.toInt) := by
  by_cases hpos : v.inlineLength > 0
  · obtain ⟨-,hend⟩ := hfits hpos
    refine ⟨crcEnd+v.inlineOffset.toNat,
      crcEnd+(v.inlineOffset.toNat+v.inlineLength.toNat),by omega,by omega,by omega,?_,?_⟩
    · simp [decodedOf, hpos]
    · intro _
      rw [← toNat_of_size hvalid.size (hvalid.inlineSize hpos)]
      congr 1
      omega
  · refine ⟨crcEnd,crcEnd,le_rfl,le_rfl,hcrc,?_,fun h => absurd h (lt_irrefl _)⟩
    simp [decodedOf, hpos, Lib.ByteCodec.slice]

/-- Whatever the file, the hash and the msgpack reader are, the decoder does not panic, and
the inline payload of a decoded record is a range behind the checksum, as long as the record
is if it is not empty. -/
theorem decode_all_bounded (xxh64 : Bytes → UInt64)
    (fromSlice : Bytes → Except String (List VersionRecord)) (bytes : Bytes)
    (hlen : bytes.length < 2^usizeBits) :
    (∀ p, decodeAll xxh64 fromSlice bytes ≠ .error (.panic p)) ∧
      ∀ rs, decodeAll xxh64 fromSlice bytes = .ok rs → ∀ r ∈ rs, ∃ lo hi,
        metaEnd bytes ≤ lo ∧ lo ≤ hi ∧ hi ≤ bytes.length ∧
        (r.inline.getD []).flatten = Lib.ByteCodec.slice bytes lo hi ∧
        (lo < hi → ((hi-lo : ℕ) : ℤ) = r.size.toInt) := by
  have hlift := lift_decodeAll (reading xxh64 fromSlice) bytes hlen
  change decodeAll xxh64 fromSlice bytes = _ at hlift
  refine ⟨fun p => hlift ▸ lift_ne_panic _ p,fun rs hrs r hr => ?_⟩
  rw [hlift, lift_eq_ok] at hrs
  obtain ⟨versions,crcEnd,hend,-,-,hvalid,hfits,rfl⟩ := decodeAll_eq_map hrs
  obtain ⟨v,hv,rfl⟩ := List.mem_map.mp hr
  obtain rfl : crcEnd = metaEnd bytes := hend
  exact decodedOf_inline _ (metaEnd_le _ bytes _ hrs) (hvalid v hv) (hfits v hv)

def twoBytes : VersionRecord :=
  { versionId := nil, ty := 0, modTime := 1, dataDir := nil, size := 2,
    erasure := { algorithm := "rs", dataBlocks := 1, blockSize := 1, index := 1,
                 distribution := [1] },
    parts := [{ number := 1, size := 2 }], metadata := [], metaSys := [],
    inlineOffset := 1, inlineLength := 2 }

def twoBytesFile : Bytes := frame (fun _ => 0) [] ++ [7,8,9,10]

theorem twoBytes_bounded :
    twoBytesFile.length < 2^usizeBits ∧
      ∃ r, decodeAll (fun _ => 0) (fun _ => .ok [twoBytes]) twoBytesFile = .ok [r] ∧
        r.inline = some [[8,9]] ∧ ∃ lo hi, metaEnd twoBytesFile ≤ lo ∧ lo ≤ hi ∧
          hi ≤ twoBytesFile.length ∧
          (r.inline.getD []).flatten = Lib.ByteCodec.slice twoBytesFile lo hi ∧
          (lo < hi → ((hi-lo : ℕ) : ℤ) = r.size.toInt) := by
  have hlen : twoBytesFile.length < 2^usizeBits := by decide +kernel
  have hdec : decodeAll (fun _ => 0) (fun _ => .ok [twoBytes]) twoBytesFile =
      .ok [decodedOf twoBytesFile (metaEnd twoBytesFile) 1 twoBytes] := by decide +kernel
  exact ⟨hlen,_,hdec,by decide +kernel,
    (decode_all_bounded _ _ twoBytesFile hlen).2 _ hdec _ List.mem_cons_self⟩

end Openlake.XlMetaBounds
