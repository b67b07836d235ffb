import Openlake.Lib.Outcomes
import Openlake.XlMeta

/-!
# Reading back an encoded xl.meta

Whatever `encodeVersions` accepts, `decodeAll` reads back newest first, as
long as the body length fits the 32-bit length field. The records differ from
the input only in the spelling of the ids and in the inline frames, which come
back as one frame.
-/

set_option autoImplicit false

namespace Openlake.XlMetaRoundTrip
open Openlake.Types VersionIds XlMeta Lib.ByteCodec Lib.Outcomes

theorem refuse_eq_ok (c : Prop) [Decidable c] (e : IoError) : refuse c e = .ok () ↔ ¬c := by
  rw [refuse]
  split_ifs with h <;> simp [h]

def ErasureOk (ei : ErasureInfo) : Prop :=
  ei.algorithm ≠ "" ∧ ei.dataBlocks ≠ 0 ∧ ei.parityBlocks ≤ ei.dataBlocks ∧
    ei.distribution.length = ei.dataBlocks.toNat+ei.parityBlocks.toNat ∧ ei.index ≠ 0 ∧
    ei.index.toNat ≤ ei.dataBlocks.toNat+ei.parityBlocks.toNat ∧ ei.blockSize ≠ 0

theorem validateErasure_eq_ok (ei : ErasureInfo) (ctx : Ctx) :
    validateErasure ei ctx = .ok () ↔ ErasureOk ei := by
  have hd : ei.dataBlocks ≠ 0 → ei.dataBlocks.toNat ≠ 0 := by
    intro h h0
    exact h (UInt8.toNat_inj.mp (by simpa using h0))
  simp only [validateErasure, unit_bind_eq_ok, refuse_eq_ok, ErasureOk]
  constructor
  · rintro ⟨h1,h2,h3,-,h5,h6,h7⟩
    rw [not_or] at h6
    exact ⟨h1,h2,UInt8.not_lt.mp h3,not_not.mp h5,h6.1,by omega,h7⟩
  · rintro ⟨h1,h2,h3,h4,h5,h6,h7⟩
    have := hd h2
    exact ⟨h1,h2,UInt8.not_lt.mpr h3,by omega,not_not.mpr h4,by rw [not_or]; exact ⟨h5,by omega⟩,h7⟩

theorem validatePartsForEncode_eq_ok (ps : List ObjectPartInfo) (i : ℕ) :
    validatePartsForEncode i ps = .ok () ↔
      ∀ p ∈ ps, 0 < p.number ∧ 0 ≤ p.size ∧ 0 ≤ p.actualSize := by
  induction ps generalizing i with
  | nil => simp [validatePartsForEncode]
  | cons p ps ih =>
    simp only [validatePartsForEncode, unit_bind_eq_ok, refuse_eq_ok, ih, Int32.not_le, Int64.not_lt,
      List.mem_cons, forall_eq_or_imp, and_assoc]

theorem validatePartsDecoded_eq_ok (ps : List ObjectPartInfo) (i : ℕ) :
    validatePartsDecoded i ps = .ok () ↔ ∀ p ∈ ps, 0 < p.number ∧ 0 ≤ p.size := by
  induction ps generalizing i with
  | nil => simp [validatePartsDecoded]
  | cons p ps ih =>
    simp only [validatePartsDecoded, unit_bind_eq_ok, refuse_eq_ok, ih, Int32.not_le, Int64.not_lt,
      List.mem_cons, forall_eq_or_imp, and_assoc]

structure Encodable (fi : FileInfo) : Prop where
  size : 0 ≤ fi.size
  modTimeMs : fi.modTimeMs ≠ 0
  erasure : ErasureOk fi.erasure
  marker : fi.deleted → fi.parts = [] ∧ fi.size = 0 ∧ hasInline fi = false
  parts : fi.deleted = false → fi.size > 0 → fi.parts ≠ []
  inlineDir : hasInline fi → fi.dataDir = ""
  dataDir : fi.deleted = false → fi.size > 0 → hasInline fi = false → fi.dataDir ≠ ""
  inlineSize : hasInline fi → Int64.ofNat (frameTotal fi) = fi.size
  partSizes : ∀ p ∈ fi.parts, 0 < p.number ∧ 0 ≤ p.size ∧ 0 ≤ p.actualSize

theorem validateForEncode_encodable (fi : FileInfo) (h : validateForEncode fi = .ok ()) :
    Encodable fi := by
  simp only [validateForEncode, unit_bind_eq_ok, refuse_eq_ok, validateErasure_eq_ok,
    validatePartsForEncode_eq_ok, not_and, Int64.not_lt, not_not] at h
  obtain ⟨h1,h2,h3,h4,h5,h6,h7,h8,h9,h10,h11⟩ := h
  exact
    { size := h1
      modTimeMs := h2
      erasure := h3
      marker := fun hd => ⟨h4 hd,h5 hd,by simpa using h6 hd⟩
      parts := h7
      inlineDir := h8
      dataDir := h9
      inlineSize := h10
      partSizes := h11 }

theorem frameTotal_eq_zero (fi : FileInfo) (h : hasInline fi = false) : frameTotal fi = 0 := by
  cases hd : fi.data with
  | none => simp [frameTotal, inlineBytes, hd]
  | some frames =>
    have : frames = [] := by simpa [hasInline, hd] using h
    simp [frameTotal, inlineBytes, hd, this]

structure Encodes (fi : FileInfo) (tailPos : ℕ) (v : VersionRecord) : Prop where
  versionId : parsed (parseUuidBytes fi.versionId "version_id") = .ok v.versionId
  ty : v.ty = if fi.deleted then 1 else 0
  modTime : v.modTime = fi.modTimeMs
  dataDir : parsed (parseUuidBytes fi.dataDir "data_dir") = .ok v.dataDir
  size : v.size = fi.size
  erasure : v.erasure = fi.erasure
  parts : v.parts = fi.parts
  metadata : v.metadata = fi.metadata
  metaSys : v.metaSys = fi.metaSys
  inlineLength : v.inlineLength = UInt64.ofNat (frameTotal fi)
  inlineOffset : v.inlineLength ≠ 0 → v.inlineOffset = UInt64.ofNat tailPos

theorem encodeRecord_encodes (fi : FileInfo) (tailPos : ℕ) (v : VersionRecord)
    (h : encodeRecord fi tailPos = .ok v) : Encodes fi tailPos v := by
  simp only [encodeRecord, bind_eq_ok] at h
  obtain ⟨a,ha,b,hb,hv⟩ := h
  obtain rfl := Except.ok.inj hv
  exact ⟨ha,rfl,rfl,hb,rfl,rfl,rfl,rfl,rfl,rfl,fun hne => if_neg hne⟩

theorem encodes_valid (fi : FileInfo) (tailPos : ℕ) (v : VersionRecord) (he : Encodable fi)
    (h : Encodes fi tailPos v) : validateDecodedVersion v = .ok () := by
  have hty : v.ty = 1 ↔ fi.deleted = true := by
    rw [h.ty]
    cases fi.deleted <;> simp
  have hinline : 0 < v.inlineLength → hasInline fi = true := by
    intro hpos
    by_contra hno
    have hz := frameTotal_eq_zero fi (by simpa using hno)
    rw [h.inlineLength, hz] at hpos
    exact absurd hpos (by decide)
  have hmap : (validateErasure v.erasure .decode).mapError
      (fun e => corrupt ("erasure validation: " ++ e.display)) = .ok () := by
    rw [h.erasure, (validateErasure_eq_ok _ _).mpr he.erasure]
    rfl
  simp only [validateDecodedVersion, unit_bind_eq_ok, refuse_eq_ok, hmap,
    validatePartsDecoded_eq_ok, not_and, not_not, hty, h.size, h.parts, true_and]
  refine ⟨?_,Int64.not_lt.mpr he.size,?_,fun hd => (he.marker hd).1,fun hd => (he.marker hd).2.1,?_,
    ?_,?_,?_,fun p hp => ⟨(he.partSizes p hp).1,(he.partSizes p hp).2.1⟩⟩
  · rw [h.ty]
    cases fi.deleted <;> decide
  · rw [h.modTime]
    exact he.modTimeMs
  · intro hd
    rw [h.inlineLength, frameTotal_eq_zero fi (he.marker hd).2.2]
    rfl
  · exact fun hd => he.parts (Bool.eq_false_iff.mpr (fun hdel => hd (hty.mpr hdel)))
  · intro hpos
    have hdir := he.inlineDir (hinline hpos)
    have hdd := h.dataDir
    rw [hdir] at hdd
    exact (Except.ok.inj hdd).symm
  · intro hpos
    rw [← he.inlineSize (hinline hpos), h.inlineLength]
    rfl

def recordOf (total : Int32) (fi : FileInfo) : DecodedRecord :=
  { versionId := fi.versionId, dataDir := fi.dataDir, deleted := fi.deleted, size := fi.size,
    modTimeMs := fi.modTimeMs, metadata := fi.metadata, metaSys := fi.metaSys,
    erasure := fi.erasure, parts := fi.parts,
    inline := if inlineBytes fi = [] then none else some [inlineBytes fi], numVersions := total }

/-- The spelling in which an id comes back from the disk. -/
def respell (format : Uuid → String) (field s : String) : String :=
  match parsed (parseUuidBytes s field) with
  | .ok u => format u
  | .error _ => s

def stored (fi : FileInfo) : FileInfo :=
  { fi with versionId := respell formatVersionIdBytes "version_id" fi.versionId,
            dataDir := respell formatDataDirBytes "data_dir" fi.dataDir }

structure Canonical (fi : FileInfo) : Prop where
  versionId : ∃ u, fi.versionId = formatVersionIdBytes u
  dataDir : ∃ u, fi.dataDir = formatDataDirBytes u

theorem respell_versionId (u : Uuid) :
    respell formatVersionIdBytes "version_id" (formatVersionIdBytes u) =
      formatVersionIdBytes u := by
  rw [respell, parseUuidBytes_formatVersionIdBytes]
  rfl

theorem respell_dataDir (u : Uuid) :
    respell formatDataDirBytes "data_dir" (formatDataDirBytes u) = formatDataDirBytes u := by
  rw [respell, parseUuidBytes_formatDataDirBytes]
  rfl

theorem Canonical.stored_eq {fi : FileInfo} (h : Canonical fi) : stored fi = fi := by
  obtain ⟨u,hu⟩ := h.versionId
  obtain ⟨d,hd⟩ := h.dataDir
  rw [stored, hu, hd, respell_versionId, respell_dataDir, ← hu, ← hd]

structure Placed (tail : Bytes) (fi : FileInfo) (v : VersionRecord) (pos : ℕ) : Prop where
  encodes : Encodes fi pos v
  fits : pos+frameTotal fi ≤ tail.length
  bytes : slice tail pos (pos+frameTotal fi) = inlineBytes fi

variable (c : MetaCodec) (xxh64 : Bytes → UInt64) (body tail : Bytes) (bytes : Bytes) (versions : List FileInfo)

theorem encodeRecords_placed (before after : Bytes)
    (records : List VersionRecord) (h : encodeRecords before.length versions = .ok records) :
    List.Forall₂ (fun fi v => ∃ pos, Placed (before ++ (inlineTail versions ++ after)) fi v pos)
      versions records := by
  induction versions generalizing before records with
  | nil =>
    obtain rfl := Except.ok.inj h
    exact .nil
  | cons fi rest ih =>
    simp only [encodeRecords, bind_eq_ok] at h
    obtain ⟨v,hv,vs,hvs,hr⟩ := h
    obtain rfl := Except.ok.inj hr
    have hsplit : before ++ (inlineTail (fi::rest) ++ after) =
        (before ++ inlineBytes fi) ++ (inlineTail rest ++ after) := by
      simp [inlineTail]
    refine .cons ⟨before.length,encodeRecord_encodes fi _ v hv,?_,?_⟩ ?_
    · simp only [inlineTail, List.flatMap_cons, List.length_append, frameTotal]
      omega
    · rw [hsplit, List.append_assoc]
      exact slice_append before (inlineBytes fi) _
    · rw [hsplit]
      exact ih (before ++ inlineBytes fi) vs (by rw [List.length_append]; exact hvs)

def decodedOf (bytes : Bytes) (crcEnd : ℕ) (total : Int32) (v : VersionRecord) : DecodedRecord :=
  { versionId := formatVersionIdBytes v.versionId, dataDir := formatDataDirBytes v.dataDir,
    deleted := v.ty = 1, size := v.size, modTimeMs := v.modTime, metadata := v.metadata,
    metaSys := v.metaSys, erasure := v.erasure, parts := v.parts,
    inline := if v.inlineLength > 0 then
      some [slice bytes (crcEnd+v.inlineOffset.toNat)
        (crcEnd+(v.inlineOffset.toNat+v.inlineLength.toNat))] else none,
    numVersions := total }

def InlineFits (bytes : Bytes) (crcEnd : ℕ) (v : VersionRecord) : Prop :=
  v.inlineLength > 0 → v.inlineOffset.toNat+v.inlineLength.toNat < 2^64 ∧
    v.inlineOffset.toNat+v.inlineLength.toNat ≤ bytes.length-crcEnd

theorem decodeInline_eq_ok (crcEnd : ℕ) (total : Int32) (v : VersionRecord)
    (inline : Option (List Bytes)) :
    decodeInline bytes crcEnd v = .ok inline ↔
      InlineFits bytes crcEnd v ∧ inline = (decodedOf bytes crcEnd total v).inline := by
  simp only [decodeInline, decodedOf, InlineFits]
  by_cases hpos : v.inlineLength > 0
  · rw [if_pos hpos, if_pos hpos]
    split_ifs with h1 h2
    · exact iff_of_false nofun (fun h => absurd (h.1 hpos).1 (Nat.not_lt.mpr h1))
    · exact iff_of_false nofun (fun h => absurd (h.1 hpos).2 (Nat.not_le.mpr h2))
    · rw [Except.ok.injEq, eq_comm, and_iff_right]
      exact fun _ => ⟨Nat.not_le.mp h1,Nat.not_lt.mp h2⟩
  · simp [hpos, eq_comm]

theorem decodeRecords_eq_ok (crcEnd : ℕ) (total : Int32) (vs : List VersionRecord)
    (rs : List DecodedRecord) :
    decodeRecords bytes crcEnd total vs = .ok rs ↔
      (∀ v ∈ vs, InlineFits bytes crcEnd v) ∧ rs = vs.map (decodedOf bytes crcEnd total) := by
  induction vs generalizing rs with
  | nil => simp [decodeRecords, eq_comm]
  | cons v vs ih =>
    simp only [decodeRecords, bind_eq_ok, decodeInline_eq_ok bytes crcEnd total, ih,
      List.forall_mem_cons, List.map_cons]
    constructor
    · rintro ⟨inline,⟨hv,rfl⟩,rest,⟨hvs,rfl⟩,hret⟩
      exact ⟨⟨hv,hvs⟩,(Except.ok.inj hret).symm⟩
    · rintro ⟨⟨hv,hvs⟩,rfl⟩
      exact ⟨_,⟨hv,rfl⟩,_,⟨hvs,rfl⟩,rfl⟩

theorem slice_after (a b : Bytes) (lo hi : ℕ) :
    slice (a++b) (a.length+lo) (a.length+hi) = slice b lo hi := by
  rw [slice, slice, List.drop_append, List.drop_eq_nil_of_le (by omega), List.nil_append]
  congr 1
  · omega
  · congr 1
    omega

theorem decodedOf_placed (head tail : Bytes) (total : Int32) (fi : FileInfo) (v : VersionRecord)
    (pos : ℕ) (h : Placed tail fi v pos) (htail : tail.length < 2^64) :
    decodedOf (head++tail) head.length total v = recordOf total (stored fi) ∧
      (v.inlineLength > 0 → v.inlineOffset.toNat+v.inlineLength.toNat ≤ tail.length) := by
  have hfit := h.fits
  have hlen : v.inlineLength.toNat = frameTotal fi := by
    rw [h.encodes.inlineLength]
    exact UInt64.toNat_ofNat_of_lt' (lt_of_le_of_lt (by omega) htail)
  have hoff : v.inlineLength > 0 → v.inlineOffset.toNat = pos := by
    intro hpos
    rw [h.encodes.inlineOffset (by rintro h0; rw [h0] at hpos; exact absurd hpos (by decide))]
    exact UInt64.toNat_ofNat_of_lt' (lt_of_le_of_lt (by omega) htail)
  have hiff : v.inlineLength > 0 ↔ inlineBytes fi ≠ [] := by
    rw [gt_iff_lt, UInt64.lt_iff_toNat_lt, hlen, frameTotal, ← List.length_pos_iff]
    rfl
  have hvid : (stored fi).versionId = formatVersionIdBytes v.versionId := by
    simp only [stored, respell, h.encodes.versionId]
  have hdir : (stored fi).dataDir = formatDataDirBytes v.dataDir := by
    simp only [stored, respell, h.encodes.dataDir]
  have hinline : inlineBytes (stored fi) = inlineBytes fi := rfl
  constructor
  · have hdel : decide (v.ty = 1) = fi.deleted := by
      rw [h.encodes.ty]
      cases fi.deleted <;> rfl
    simp only [decodedOf, recordOf, hvid, hdir, hinline, hdel, h.encodes.size, h.encodes.modTime,
      h.encodes.metadata, h.encodes.metaSys, h.encodes.erasure, h.encodes.parts]
    by_cases hpos : v.inlineLength > 0
    · rw [if_pos hpos, if_neg (hiff.mp hpos), slice_after, hoff hpos, hlen, h.bytes]
      rfl
    · rw [if_neg hpos, if_pos (not_not.mp (fun hne => hpos (hiff.mpr hne)))]
      rfl
  · intro hpos
    rw [hoff hpos, hlen]
    exact hfit

theorem length_frame (body : Bytes) :
    (frame xxh64 body).length = headerLen+bin32HeaderLen+body.length+crcLen := by
  simp [frame, magic, headerLen, bin32HeaderLen, crcLen]
  omega

def frameHead : Bytes := magic ++ leBytes 2 formatMajor ++ leBytes 2 formatMinor ++ [bin32Tag]

theorem frame_append :
    frame xxh64 body ++ tail = frameHead ++ (beBytes 4 body.length ++ (body ++ ([crcTag] ++
      (beBytes 4 (xxh64 body).toNat ++ tail)))) := by
  simp [frame, frameHead]

theorem slice_prefix (a b : Bytes) (lo hi : ℕ) (h : hi ≤ a.length) :
    slice (a++b) lo hi = slice a lo hi := by
  rw [slice, slice]
  rcases Nat.le_total lo hi with hle | hle
  · rw [List.drop_append_of_le_length (by omega), List.take_append_of_le_length]
    rw [List.length_drop]
    omega
  · rw [Nat.sub_eq_zero_of_le hle, List.take_zero, List.take_zero]

/-- The fields before the body, as the decoder slices them out. The length
field holds the body length modulo its width. -/
theorem frame_head_fields :
    let bytes := frame xxh64 body ++ tail
    slice bytes 0 4 = magic ∧ leValue (slice bytes 4 6) = formatMajor ∧
    leValue (slice bytes 6 8) = formatMinor ∧ bytes[headerLen]? = some bin32Tag ∧
    beValue (slice bytes (headerLen+1) (headerLen+5)) = body.length%2^32 := by
  have hhead : frameHead.length = 9 := by decide
  have hlead : ∀ rest lo hi, hi ≤ 9 → slice (frameHead++rest) lo hi = slice frameHead lo hi :=
    fun rest lo hi h => slice_prefix _ _ lo hi (by omega)
  simp only [frame_append, headerLen]
  refine ⟨?_,?_,?_,?_,?_⟩
  · rw [hlead _ _ _ (by omega)]
    decide
  · rw [hlead _ _ _ (by omega)]
    decide
  · rw [hlead _ _ _ (by omega)]
    decide
  · rw [List.getElem?_append_left (by omega)]
    decide
  · have := slice_append frameHead (beBytes 4 body.length)
      (body ++ ([crcTag] ++ (beBytes 4 (xxh64 body).toNat ++ tail)))
    rw [hhead, length_beBytes] at this
    rw [this, beValue_beBytes]
    norm_num

theorem frame_body_fields :
    let bytes := frame xxh64 body ++ tail
    slice bytes (headerLen+bin32HeaderLen) (headerLen+bin32HeaderLen+body.length) = body ∧
    bytes[headerLen+bin32HeaderLen+body.length]? = some crcTag ∧
    beValue (slice bytes (headerLen+bin32HeaderLen+body.length+1)
      (headerLen+bin32HeaderLen+body.length+crcLen)) = (xxh64 body).toNat%2^32 := by
  have hhead : frameHead.length = 9 := by decide
  simp only [frame_append, headerLen, bin32HeaderLen, crcLen]
  refine ⟨?_,?_,?_⟩
  · have := slice_append (frameHead ++ beBytes 4 body.length) body
      ([crcTag] ++ (beBytes 4 (xxh64 body).toNat ++ tail))
    rwa [List.length_append, hhead, length_beBytes, List.append_assoc] at this
  · have hl : (frameHead ++ beBytes 4 body.length ++ body).length = 8+5+body.length := by
      simp only [List.length_append, hhead, length_beBytes]
    rw [← List.append_assoc, ← List.append_assoc, ← hl, List.getElem?_append_right (Nat.le_refl _),
      Nat.sub_self]
    rfl
  · have := slice_append (frameHead ++ beBytes 4 body.length ++ body ++ [crcTag])
      (beBytes 4 (xxh64 body).toNat) tail
    simp only [List.length_append, hhead, length_beBytes, List.append_assoc,
      List.length_singleton] at this
    rw [show 8+5+body.length+1 = 9+(4+(body.length+1)) by omega,
      show 8+5+body.length+5 = 9+(4+(body.length+1))+4 by omega, this, beValue_beBytes]
    norm_num

theorem checkAll_eq_ok {α : Type} (f : α → Except IoError Unit) (l : List α) :
    checkAll f l = .ok () ↔ ∀ a ∈ l, f a = .ok () := by
  induction l with
  | nil => simp [checkAll]
  | cons a as ih => simp [checkAll, unit_bind_eq_ok, ih]

theorem forall₂_decodedOf (head tail : Bytes) (total : Int32) (versions : List FileInfo)
    (records : List VersionRecord) (htail : tail.length < 2^64)
    (h : List.Forall₂ (fun fi v => ∃ pos, Placed tail fi v pos) versions records) :
    records.map (decodedOf (head++tail) head.length total) =
      versions.map (fun fi => recordOf total (stored fi)) := by
  induction h with
  | nil => rfl
  | cons hp _ ih =>
    obtain ⟨pos,hp⟩ := hp
    rw [List.map_cons, List.map_cons, ih, (decodedOf_placed head tail total _ _ pos hp htail).1]

def newestRecordFirst : List DecodedRecord → List DecodedRecord :=
  List.insertionSort (fun a b => b.modTimeMs ≤ a.modTimeMs)

theorem refuse_pass {β : Type} (c : Prop) [Decidable c] (e : IoError)
    (f : Unit → Except IoError β) (h : ¬c) : (refuse c e >>= f) = f () := by
  rw [refuse, if_neg h]
  rfl

theorem encodeBody_eq_ok (body : Bytes)
    (h : encodeBody c versions = .ok body) :
    versions ≠ [] ∧ (∀ fi ∈ versions, Encodable fi) ∧
      ∃ records, encodeRecords 0 versions = .ok records ∧ c.rmp.encode records = .ok body := by
  simp only [encodeBody, unit_bind_eq_ok, refuse_eq_ok, checkAll_eq_ok] at h
  obtain ⟨hne,hvalid,h⟩ := h
  obtain ⟨records,hrec,henc⟩ := bind_eq_ok.mp h
  refine ⟨hne,fun fi hfi => validateForEncode_encodable fi (hvalid fi hfi),records,hrec,?_⟩
  cases hr : c.rmp.encode records with
  | error e => rw [hr] at henc; cases henc
  | ok b =>
    rw [hr] at henc
    exact congrArg Except.ok (Except.ok.inj henc)

theorem forall₂_mem_right {α β : Type} {R : α → β → Prop} {l : List α} {m : List β}
    (h : List.Forall₂ R l m) (b : β) (hb : b ∈ m) : ∃ a ∈ l, R a b := by
  induction h with
  | nil => simp at hb
  | cons hab _ ih =>
    rcases List.mem_cons.mp hb with rfl | hb
    · exact ⟨_,by simp,hab⟩
    · obtain ⟨a,ha,hr⟩ := ih hb
      exact ⟨a,by simp [ha],hr⟩

theorem decodeAll_frame (records : List VersionRecord)
    (hlen : body.length < 2^32) (hdec : c.rmp.decode body = .ok records) (hne : records ≠ [])
    (hvalid : ∀ v ∈ records, validateDecodedVersion v = .ok ()) :
    decodeAll c (frame c.xxh64 body ++ tail) =
      decodeRecords (frame c.xxh64 body ++ tail) (frame c.xxh64 body).length
        (Int32.ofNat records.length) (newestFirst records) := by
  obtain ⟨f1,f2,f3,f4,f5⟩ := frame_head_fields c.xxh64 body tail
  obtain ⟨f6,f7,f8⟩ := frame_body_fields c.xxh64 body tail
  rw [Nat.mod_eq_of_lt hlen] at f5
  have hflen := length_frame c.xxh64 body
  have hlength : (newestFirst records).length = records.length :=
    List.length_insertionSort _ records
  have hall : checkAll validateDecodedVersion (newestFirst records) = .ok () := by
    rw [checkAll_eq_ok]
    exact fun v hv => hvalid v ((List.mem_insertionSort _).mp hv)
  simp only [decodeAll, f1, f2, f3, f4, f5, f6, f7, f8]
  rw [refuse_pass _ _ _ (by rw [List.length_append, hflen]; omega)]
  iterate 4 rw [refuse_pass _ _ _ (by simp)]
  rw [refuse_pass _ _ _ (by rw [List.length_append, hflen]; omega)]
  iterate 2 rw [refuse_pass _ _ _ (by simp)]
  rw [hdec]
  simp only [Except.mapError, bind, Except.bind]
  rw [refuse, if_neg hne]
  simp only [hall, hlength, hflen]

/-- A body that does not fit its length field is cut where the wrapped length
says, and the file does not decode unless the checksum marker happens to be
there. -/
theorem decodeAll_wrapped (x : UInt8)
    (hx : body[body.length%2^32]? = some x) (hne : x ≠ crcTag) :
    decodeAll c (frame c.xxh64 body ++ tail) = .error (corrupt "missing crc marker") := by
  obtain ⟨f1,f2,f3,f4,f5⟩ := frame_head_fields c.xxh64 body tail
  have hflen := length_frame c.xxh64 body
  have hlt : body.length%2^32 < body.length := (List.getElem?_eq_some_iff.mp hx).1
  have hcut : (frame c.xxh64 body ++ tail)[headerLen+bin32HeaderLen+body.length%2^32]? =
      some x := by
    have hlen : (frameHead ++ beBytes 4 body.length).length = headerLen+bin32HeaderLen := by
      rw [List.length_append, length_beBytes]
      rfl
    rw [frame_append, ← List.append_assoc, List.getElem?_append_right (by omega), hlen,
      Nat.add_sub_cancel_left, List.getElem?_append_left hlt, hx]
  simp only [decodeAll, f1, f2, f3, f4, f5, hcut]
  rw [refuse_pass _ _ _ (by rw [List.length_append, hflen]; omega)]
  iterate 4 rw [refuse_pass _ _ _ (by simp)]
  rw [refuse_pass _ _ _ (by rw [List.length_append, hflen]; omega), refuse,
    if_pos (by simpa using hne)]
  rfl

/-- Encoded versions decode to the same versions, newest first, when the body
length fits its field. -/
theorem decodeAll_encodeVersions (body bytes : Bytes)
    (hb : encodeBody c versions = .ok body) (h : encodeVersions c versions = .ok bytes)
    (hlen : body.length < 2^32) (htail : (inlineTail versions).length < 2^64) :
    decodeAll c bytes = .ok (newestRecordFirst
      (versions.map (fun fi => recordOf (Int32.ofNat versions.length) (stored fi)))) := by
  simp only [encodeVersions, hb] at h
  obtain rfl : frame c.xxh64 body ++ inlineTail versions = bytes := Except.ok.inj h
  obtain ⟨hne,hvalid,records,hrec,henc⟩ := encodeBody_eq_ok c versions body hb
  have hplaced := encodeRecords_placed versions [] [] records hrec
  rw [List.nil_append, List.append_nil] at hplaced
  have hmem := fun v hv => forall₂_mem_right hplaced v hv
  have hnonempty : records ≠ [] := by
    rintro rfl
    cases hplaced
    exact hne rfl
  rw [decodeAll_frame c body _ records hlen (c.rmp.round_trip _ _ henc) hnonempty]
  · rw [decodeRecords_eq_ok, ← hplaced.length_eq, newestRecordFirst,
      ← forall₂_decodedOf (frame c.xxh64 body) _ _ versions records htail hplaced, newestFirst,
      List.map_insertionSort (fun a b : VersionRecord => b.modTime ≤ a.modTime)
        (fun a b : DecodedRecord => b.modTimeMs ≤ a.modTimeMs) _ _ (fun a _ b _ => Iff.rfl)]
    refine ⟨fun v hv hpos => ?_,rfl⟩
    obtain ⟨fi,hfi,pos,hp⟩ := hmem v ((List.mem_insertionSort _).mp hv)
    have hle := (decodedOf_placed [] _ 0 fi v pos hp htail).2 hpos
    rw [List.length_append]
    omega
  · intro v hv
    obtain ⟨fi,hfi,pos,hp⟩ := hmem v hv
    exact encodes_valid fi pos v (hvalid fi hfi) hp.encodes

variable (rs : List DecodedRecord)

section

variable (h : decodeAll c bytes = .ok rs) (r : DecodedRecord) (hr : r ∈ rs)

include h hr

theorem decodeAll_mem :
    ∃ v crcEnd total, validateDecodedVersion v = .ok () ∧ r = decodedOf bytes crcEnd total v := by
  simp only [decodeAll, unit_bind_eq_ok] at h
  obtain ⟨-,-,-,-,-,-,-,-,h⟩ := h
  obtain ⟨onDisk,-,h⟩ := bind_eq_ok.mp h
  simp only [unit_bind_eq_ok, checkAll_eq_ok, decodeRecords_eq_ok] at h
  obtain ⟨-,hvalid,-,rfl⟩ := h
  obtain ⟨v,hv,rfl⟩ := List.mem_map.mp hr
  exact ⟨v,_,_,hvalid v hv,rfl⟩

theorem decodeAll_spelled :
    ∃ v : VersionRecord, r.versionId = formatVersionIdBytes v.versionId ∧
      r.dataDir = formatDataDirBytes v.dataDir := by
  obtain ⟨v,_,_,-,rfl⟩ := decodeAll_mem c bytes rs h r hr
  exact ⟨v,rfl,rfl⟩

theorem decodeAll_erasure : ErasureOk r.erasure := by
  obtain ⟨v,_,_,hv,rfl⟩ := decodeAll_mem c bytes rs h r hr
  simp only [validateDecodedVersion, unit_bind_eq_ok] at hv
  have he := hv.2.2.2.1
  cases hx : validateErasure v.erasure .decode with
  | error e => rw [hx] at he; cases he
  | ok u => exact (validateErasure_eq_ok v.erasure .decode).mp hx

end

end Openlake.XlMetaRoundTrip
