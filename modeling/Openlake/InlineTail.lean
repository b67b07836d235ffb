import Openlake.Consensus
import Openlake.LocalFsEffects

/-!
# The inline tail of a metadata file

The checksum of a metadata file covers its msgpack body. What follows is the
tail, from which each record with an inline payload takes a range. A file whose
tail was replaced decodes as long as the tail reaches the end of every such
range, and then to the same records up to their payloads.
-/

set_option autoImplicit false

namespace Openlake.InlineTail
open Openlake.Types XlMeta XlMetaRoundTrip VersionIds LocalFs Lib.ByteCodec Lib.Outcomes

def bodyLength (raw : Bytes) : ℕ := beValue (slice raw (headerLen+1) (headerLen+5))

def bodyBytes (raw : Bytes) : Bytes :=
  slice raw (headerLen+bin32HeaderLen) (headerLen+bin32HeaderLen+bodyLength raw)

def metaEnd (raw : Bytes) : ℕ := headerLen+bin32HeaderLen+bodyLength raw+crcLen

def retail (raw tail : Bytes) : Bytes := raw.take (metaEnd raw) ++ tail

def onDiskRecords (c : MetaCodec) (raw : Bytes) : List VersionRecord :=
  newestFirst ((c.rmp.decode (bodyBytes raw)).toOption.getD [])

def inlineEnd (v : VersionRecord) : ℕ :=
  if v.inlineLength > 0 then v.inlineOffset.toNat+v.inlineLength.toNat else 0

def tailShort (c : MetaCodec) (raw tail : Bytes) : Bool :=
  (onDiskRecords c raw).any (fun v => tail.length < inlineEnd v)

theorem metaEnd_le (c : MetaCodec) (raw : Bytes) (rs : List DecodedRecord)
    (h : decodeAll c raw = .ok rs) : metaEnd raw ≤ raw.length := by
  simp only [decodeAll, unit_bind_eq_ok, refuse_eq_ok] at h
  exact Nat.not_lt.mp h.2.2.2.2.2.1

theorem slice_of_take_eq {a b : Bytes} {k : ℕ} (h : a.take k = b.take k) (lo hi : ℕ) (hk : hi ≤ k) :
    slice a lo hi = slice b lo hi := by
  have hcut : ∀ x : Bytes, slice x lo hi = slice (x.take k) lo hi := by
    intro x
    rw [slice, slice, List.drop_take, List.take_take, Nat.min_eq_left (by omega)]
  rw [hcut a, hcut b, h]

theorem getElem?_of_take_eq {a b : Bytes} {k : ℕ} (h : a.take k = b.take k) (j : ℕ) (hj : j < k) :
    a[j]? = b[j]? := by
  have hcut : ∀ x : Bytes, x[j]? = (x.take k)[j]? := by
    intro x
    rw [List.getElem?_take, if_pos hj]
  rw [hcut a, hcut b, h]

/-- Once a file decodes, every file with the same checksummed part gets as far
as its records. -/
theorem decodeAll_same_head (c : MetaCodec) (raw raw' : Bytes) (rs : List DecodedRecord)
    (h : decodeAll c raw = .ok rs) (hsame : raw'.take (metaEnd raw) = raw.take (metaEnd raw)) :
    decodeAll c raw' = decodeRecords raw' (metaEnd raw)
      (Int32.ofNat (onDiskRecords c raw).length) (onDiskRecords c raw) := by
  simp only [decodeAll, unit_bind_eq_ok, refuse_eq_ok, not_not] at h
  obtain ⟨h1,h2,h3,h4,h5,h6,h7,h8,h⟩ := h
  obtain ⟨onDisk,hdec,h⟩ := bind_eq_ok.mp h
  simp only [unit_bind_eq_ok, refuse_eq_ok] at h
  obtain ⟨hne,hall,-⟩ := h
  rw [mapError_eq_ok] at hdec
  rw [show beValue (slice raw (headerLen+1) (headerLen+5)) = bodyLength raw from rfl] at h6 h7 h8
  have hsizes : headerLen = 8 ∧ bin32HeaderLen = 5 ∧ crcLen = 5 := ⟨rfl,rfl,rfl⟩
  have hend : headerLen+bin32HeaderLen+bodyLength raw+crcLen = metaEnd raw := rfl
  have hlen' : metaEnd raw ≤ raw'.length := by
    have hlen := congrArg List.length hsame
    rw [List.length_take, List.length_take] at hlen
    omega
  have hrecords : newestFirst onDisk = onDiskRecords c raw := by
    rw [onDiskRecords, bodyBytes, bodyLength, hdec]
    rfl
  have hslice := fun lo hi (h : hi ≤ metaEnd raw) => slice_of_take_eq hsame lo hi h
  have hget := fun j (h : j < metaEnd raw) => getElem?_of_take_eq hsame j h
  have hbody : beValue (slice raw' (headerLen+1) (headerLen+5)) = bodyLength raw := by
    rw [hslice _ _ (by omega)]
    rfl
  simp only [decodeAll, hbody]
  rw [refuse_pass _ _ _ (by omega), refuse_pass _ _ _ (by rw [hslice 0 4 (by omega)]; exact not_not.mpr h2),
    refuse_pass _ _ _ (by rw [hslice 4 6 (by omega)]; exact not_not.mpr h3),
    refuse_pass _ _ _ (by rw [hslice 6 8 (by omega)]; exact not_not.mpr h4),
    refuse_pass _ _ _ (by rw [hget headerLen (by omega)]; exact not_not.mpr h5),
    refuse_pass _ _ _ (by omega),
    refuse_pass _ _ _ (by rw [hget _ (by omega)]; exact not_not.mpr h7),
    refuse_pass _ _ _ (by rw [hslice _ _ (by omega), hslice _ _ (by omega)]; exact not_not.mpr h8),
    hslice _ _ (by omega), show c.rmp.decode (slice raw (headerLen+bin32HeaderLen)
      (headerLen+bin32HeaderLen+bodyLength raw)) = .ok onDisk from hdec]
  simp only [Except.mapError, bind, Except.bind]
  rw [refuse, if_neg hne]
  rw [hrecords] at hall
  simp only [hrecords, hall, hend]

def pickRecord (vs : List VersionRecord) : Option String → Option VersionRecord
  | none => vs.head?
  | some id => vs.find? (fun v => formatVersionIdBytes v.versionId = id)

theorem pickRecord_mem (vs : List VersionRecord) (id : Option String) (v : VersionRecord)
    (h : pickRecord vs id = some v) : v ∈ vs := by
  cases id with
  | none => exact List.mem_of_head? h
  | some id => exact List.mem_of_find?_eq_some h

/-- The bytes of a tail in the range of the version that is asked for. -/
def payloadIn (c : MetaCodec) (versionId : Option String) (raw tail : Bytes) : Bytes :=
  ((pickRecord (onDiskRecords c raw) versionId).map
    (fun v => slice tail v.inlineOffset.toNat (inlineEnd v))).getD []

theorem pickVersion_eq_ok (c : MetaCodec) (volume path : String) (bytes : Bytes) (crcEnd : ℕ)
    (total : Int32) (vs : List VersionRecord)
    (h : decodeAll c bytes = .ok (vs.map (decodedOf bytes crcEnd total))) (id : Option String)
    (r : DecodedRecord) :
    pickVersion c volume path bytes id = .ok r ↔
      ∃ v, pickRecord vs id = some v ∧ r = decodedOf bytes crcEnd total v := by
  cases id with
  | none =>
    rw [pickVersion, mapError_eq_ok, decode, h]
    cases vs with
    | nil => simp [pickRecord, bind, Except.bind]
    | cons v vs => simp [pickRecord, bind, Except.bind, eq_comm]
  | some id =>
    have hfind : (vs.map (decodedOf bytes crcEnd total)).find? (fun r => r.versionId = id) =
        (pickRecord vs (some id)).map (decodedOf bytes crcEnd total) := by
      rw [List.find?_map]
      rfl
    rw [pickVersion, findVersion, h]
    simp only [bind, Except.bind, pure, Except.pure, hfind]
    cases pickRecord vs (some id) with
    | none => simp
    | some v => simp [eq_comm]

theorem decodeRecords_error (bytes : Bytes) (crcEnd : ℕ) (total : Int32) (vs : List VersionRecord)
    (e : IoError) (h : decodeRecords bytes crcEnd total vs = .error e) :
    ∃ msg, e = corrupt msg := by
  induction vs with
  | nil => cases h
  | cons v vs ih =>
    rw [decodeRecords] at h
    cases hi : decodeInline bytes crcEnd v with
    | error e' =>
      rw [hi] at h
      cases h
      simp only [decodeInline] at hi
      split_ifs at hi <;> cases hi <;> exact ⟨_,rfl⟩
    | ok inline =>
      rw [hi] at h
      cases hr : decodeRecords bytes crcEnd total vs with
      | error e' =>
        rw [hr] at h
        cases h
        exact ih hr
      | ok rest => rw [hr] at h; cases h

section Retail

variable (c : MetaCodec) (volume path : String) (raw tail : Bytes) (id : Option String)
  (fi : FileInfo)

/-- How a version is read before and after its file got another tail. -/
structure Retailed : Prop where
  data : fi.data = none ∨ fi.data = some [payloadIn c id raw (raw.drop (metaEnd raw))]
  fits : tailShort c raw tail = false → versionFrom c volume path (retail raw tail) id true =
    .ok { fi with data := fi.data.map (fun _ => [payloadIn c id raw tail]) }
  short : tailShort c raw tail = true → ∃ v p msg,
    versionFrom c volume path (retail raw tail) id true = .error (.corruptMetadata v p msg)
  nonempty : tailShort c raw tail = false → fi.data.isSome → payloadIn c id raw tail ≠ []

section Tail

variable {raw tail} (hend : metaEnd raw ≤ raw.length) (v : VersionRecord)

include hend

theorem length_head : (raw.take (metaEnd raw)).length = metaEnd raw := by
  rw [List.length_take, Nat.min_eq_left hend]

theorem decodedOf_retail (total : Int32) :
    decodedOf (retail raw tail) (metaEnd raw) total v =
      { decodedOf raw (metaEnd raw) total v with
        inline := (decodedOf raw (metaEnd raw) total v).inline.map
          (fun _ => [slice tail v.inlineOffset.toNat (inlineEnd v)]) } := by
  have hslice := fun lo hi => slice_after (raw.take (metaEnd raw)) tail lo hi
  rw [length_head hend] at hslice
  simp only [decodedOf, retail, inlineEnd]
  by_cases hpos : v.inlineLength > 0
  · simp only [if_pos hpos, hslice, Option.map_some]
  · simp only [if_neg hpos, Option.map_none]

theorem inlineFits_retail (hfit : InlineFits raw (metaEnd raw) v) :
    InlineFits (retail raw tail) (metaEnd raw) v ↔ inlineEnd v ≤ tail.length := by
  have hlen : (retail raw tail).length-metaEnd raw = tail.length := by
    rw [retail, List.length_append, length_head hend, Nat.add_sub_cancel_left]
  rw [InlineFits, hlen, inlineEnd]
  by_cases hpos : v.inlineLength > 0
  · simp only [hpos, forall_const, if_true, (hfit hpos).1, true_and]
  · simp [hpos]

end Tail

theorem versionFrom_retail (h : versionFrom c volume path raw id true = .ok fi) :
    Retailed c volume path raw tail id fi := by
  rw [versionFrom, bind_eq_ok] at h
  obtain ⟨r,hr,hfi⟩ := h
  obtain rfl := Except.ok.inj hfi
  obtain ⟨rs,hrs,-⟩ := pickVersion_mem c volume path raw id r hr
  have hend := metaEnd_le c raw rs hrs
  have hbefore := decodeAll_same_head c raw raw rs hrs rfl
  have hafter := decodeAll_same_head c raw (retail raw tail) rs hrs
    (by rw [retail, List.take_append_of_le_length (by rw [length_head hend]), List.take_take,
      Nat.min_self])
  generalize Int32.ofNat (onDiskRecords c raw).length = total at hbefore hafter
  have hok := hrs
  rw [hbefore, decodeRecords_eq_ok] at hok
  obtain ⟨hfit,rfl⟩ := hok
  obtain ⟨v,hv,rfl⟩ := (pickVersion_eq_ok c volume path raw _ _ _ hrs id r).mp hr
  have hpayload : ∀ t, payloadIn c id raw t = slice t v.inlineOffset.toNat (inlineEnd v) := by
    intro t
    rw [payloadIn, hv]
    rfl
  have hreach : tailShort c raw tail = false ↔
      ∀ w ∈ onDiskRecords c raw, InlineFits (retail raw tail) (metaEnd raw) w := by
    rw [tailShort, List.any_eq_false]
    apply forall₂_congr
    intro w hw
    rw [inlineFits_retail hend w (hfit w hw), decide_eq_true_iff, not_lt]
  constructor
  · have hself : retail raw (raw.drop (metaEnd raw)) = raw := List.take_append_drop _ _
    have hinline : (decodedOf raw (metaEnd raw) total v).inline =
        (decodedOf raw (metaEnd raw) total v).inline.map
          (fun _ => [payloadIn c id raw (raw.drop (metaEnd raw))]) := by
      have h := congrArg DecodedRecord.inline
        (@decodedOf_retail raw (raw.drop (metaEnd raw)) hend v total)
      rwa [hself, ← hpayload] at h
    show (decodedOf raw (metaEnd raw) total v).inline = none ∨
      (decodedOf raw (metaEnd raw) total v).inline = some _
    cases hd : (decodedOf raw (metaEnd raw) total v).inline with
    | none => exact .inl rfl
    | some frames =>
      rw [hd] at hinline
      exact .inr hinline
  · intro hs
    rw [(decodeRecords_eq_ok _ _ _ _ _).mpr ⟨hreach.mp hs,rfl⟩] at hafter
    have hpick := (pickVersion_eq_ok c volume path _ _ _ _ hafter id _).mpr ⟨v,hv,rfl⟩
    rw [versionFrom, hpick, decodedOf_retail hend, hpayload]
    rfl
  · intro hs
    have hfail : ∃ msg, decodeAll c (retail raw tail) = .error (corrupt msg) := by
      cases hd : decodeAll c (retail raw tail) with
      | ok rs' =>
        rw [hafter, decodeRecords_eq_ok] at hd
        rw [hreach.mpr hd.1] at hs
        cases hs
      | error e =>
        obtain ⟨msg,rfl⟩ := decodeRecords_error _ _ _ _ e (hafter.symm.trans hd)
        exact ⟨msg,rfl⟩
    obtain ⟨msg,hmsg⟩ := hfail
    cases id with
    | none =>
      refine ⟨volume,path,msg,?_⟩
      rw [versionFrom, pickVersion, decode, hmsg]
      rfl
    | some id =>
      refine ⟨"","",msg,?_⟩
      rw [versionFrom, pickVersion, findVersion, hmsg]
      rfl
  · intro hs hdata
    have hpos : v.inlineLength > 0 := by
      by_contra hpos
      simp [fileInfoFromRecord, decodedOf, hpos] at hdata
    have hmem : v ∈ onDiskRecords c raw := pickRecord_mem _ id v hv
    have hle := (inlineFits_retail hend v (hfit v hmem)).mp (hreach.mp hs v hmem)
    rw [hpayload, ← List.length_pos_iff, slice, List.length_take, List.length_drop]
    rw [inlineEnd, if_pos hpos] at hle ⊢
    have hlen : 0 < v.inlineLength.toNat := hpos
    omega

end Retail

end Openlake.InlineTail
