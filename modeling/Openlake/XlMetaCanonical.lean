import Openlake.Lib.StableSort
import Openlake.RecordBytes
import Openlake.XlMetaRoundTrip

/-!
# Reading back versions with canonical ids

A lowercase dashed UUID is the text of sixteen bytes. Versions with such ids
come back with the ids they had, except that the nil UUID is the text of the
null version: a version with that id comes back as `null`.
-/

set_option autoImplicit false

namespace Openlake.XlMetaCanonical
open Openlake.Types VersionIds XlMeta XlMetaRoundTrip RecordBytes Lib.StableSort

def lowerHex (c : Char) : Bool := ('0' ≤ c && c ≤ '9') || ('a' ≤ c && c ≤ 'f')

def LowercaseUuid (s : String) : Prop :=
  ∃ h : List Char, h.length = 32 ∧ (∀ c ∈ h, lowerHex c = true) ∧ s.toList = dashed h

theorem hexDigit_of_lowerHex (c : Char) (h : lowerHex c = true) : ∃ n < 16, c = hexDigit n := by
  simp only [lowerHex, Bool.or_eq_true, Bool.and_eq_true, decide_eq_true_eq] at h
  have hval : ∀ a b : Char, a ≤ b ↔ a.toNat ≤ b.toNat := fun a b => UInt32.le_iff_toNat_le
  rcases h with ⟨h1,h2⟩ | ⟨h1,h2⟩
  · rw [hval] at h1 h2
    have h1 : 48 ≤ c.toNat := h1
    have h2 : c.toNat ≤ 57 := h2
    refine ⟨c.toNat-48,by omega,?_⟩
    rw [hexDigit, if_pos (by omega), show 48+(c.toNat-48) = c.toNat by omega, Char.ofNat_toNat]
  · rw [hval] at h1 h2
    have h1 : 97 ≤ c.toNat := h1
    have h2 : c.toNat ≤ 102 := h2
    refine ⟨c.toNat-87,by omega,?_⟩
    rw [hexDigit, if_neg (by omega), show 87+(c.toNat-87) = c.toNat by omega, Char.ofNat_toNat]

theorem hexDigits_of_lowerHex (n : ℕ) (h : List Char) (hlen : h.length = 2*n)
    (hhex : ∀ c ∈ h, lowerHex c = true) :
    ∃ bytes : Bytes, bytes.length = n ∧ bytes.flatMap hexByte = h := by
  induction n generalizing h with
  | zero => exact ⟨[],rfl,by rw [List.length_eq_zero_iff.mp hlen]; rfl⟩
  | succ n ih =>
    obtain ⟨c,d,h,rfl⟩ : ∃ c d rest, h = c::d::rest := by
      match h, hlen with
      | c::d::rest, _ => exact ⟨c,d,rest,rfl⟩
    obtain ⟨bytes,hn,hbytes⟩ := ih h (by simp at hlen; omega)
      (fun x hx => hhex x (by simp [hx]))
    obtain ⟨a,ha,rfl⟩ := hexDigit_of_lowerHex c (hhex c (by simp))
    obtain ⟨b,hb,rfl⟩ := hexDigit_of_lowerHex d (hhex d (by simp))
    refine ⟨UInt8.ofNat (16*a+b)::bytes,by rw [List.length_cons, hn],?_⟩
    have hval : (UInt8.ofNat (16*a+b)).toNat = 16*a+b := UInt8.toNat_ofNat_of_lt' (show 16*a+b < 256 by omega)
    rw [List.flatMap_cons, hbytes, hexByte, hval, show (16*a+b)/16 = a by omega,
      show (16*a+b)%16 = b by omega]
    rfl

theorem LowercaseUuid.exists_bytes {s : String} (h : LowercaseUuid s) : ∃ u, s = formatUuidHex u := by
  obtain ⟨h,hlen,hhex,hs⟩ := h
  obtain ⟨bytes,hn,rfl⟩ := hexDigits_of_lowerHex 16 h hlen hhex
  refine ⟨⟨bytes.toArray,hn⟩,?_⟩
  rw [formatUuidHex, ← String.toList_inj, hs, String.toList_ofList]
  rfl

def nilUuid : String := "00000000-0000-0000-0000-000000000000"

theorem formatUuidHex_nil : formatUuidHex nil = nilUuid := by decide +kernel

theorem formatVersionIdBytes_of_lowercase (s : String) (h : LowercaseUuid s) (hnil : s ≠ nilUuid) :
    ∃ u, s = formatVersionIdBytes u := by
  obtain ⟨u,rfl⟩ := h.exists_bytes
  have hu : u ≠ nil := by
    rintro rfl
    exact hnil formatUuidHex_nil
  exact ⟨u,by rw [formatVersionIdBytes, if_neg hu]⟩

theorem formatDataDirBytes_of_lowercase (s : String) (h : LowercaseUuid s) (hnil : s ≠ nilUuid) :
    ∃ u, s = formatDataDirBytes u := by
  obtain ⟨u,rfl⟩ := h.exists_bytes
  have hu : u ≠ nil := by
    rintro rfl
    exact hnil formatUuidHex_nil
  exact ⟨u,by rw [formatDataDirBytes, if_neg hu]⟩

/-- The version id is `null` or a lowercase dashed UUID, the data dir is empty
or a lowercase dashed UUID other than nil. -/
structure Spelled (fi : FileInfo) : Prop where
  versionId : fi.versionId = nullVersionId ∨ LowercaseUuid fi.versionId
  dataDir : fi.dataDir = "" ∨ LowercaseUuid fi.dataDir ∧ fi.dataDir ≠ nilUuid

theorem Spelled.canonical {fi : FileInfo} (h : Spelled fi) (hnil : fi.versionId ≠ nilUuid) :
    Canonical fi := by
  constructor
  · rcases h.versionId with hnull | hid
    · exact ⟨nil,by rw [hnull, formatVersionIdBytes, if_pos rfl]⟩
    · exact formatVersionIdBytes_of_lowercase _ hid hnil
  · rcases h.dataDir with hempty | ⟨hdir,hne⟩
    · exact ⟨nil,by rw [hempty, formatDataDirBytes, if_pos rfl]⟩
    · exact formatDataDirBytes_of_lowercase _ hdir hne

/-- The decoded records are those of the versions, newest first, and those of
one time in the order in which they were encoded. -/
def ReadsBack (c : MetaCodec) (versions : List FileInfo) (bytes : Bytes) : Prop :=
  ∃ rs, decodeAll c bytes = .ok rs ∧ rs.Pairwise (fun a b => b.modTimeMs ≤ a.modTimeMs) ∧
    ∀ t, rs.filter (fun r => r.modTimeMs = t) =
      (versions.filter (fun fi => fi.modTimeMs = t)).map (recordOf (Int32.ofNat versions.length))

theorem newestRecordFirst_reads (total : Int32) (versions : List FileInfo) (t : UInt64) :
    (newestRecordFirst (versions.map (recordOf total))).filter (fun r => r.modTimeMs = t) =
      (versions.filter (fun fi => fi.modTimeMs = t)).map (recordOf total) := by
  rw [newestRecordFirst, filter_insertionSort, List.filter_map]
  · rfl
  · intro a b ha hb
    rw [of_decide_eq_true ha, of_decide_eq_true hb]
    exact UInt64.le_refl t

/-- Versions with canonical ids, none of them nil, are read back. -/
theorem canonical_readsBack (c : MetaCodec) (versions : List FileInfo) (body bytes : Bytes)
    (hb : encodeBody c versions = .ok body) (h : encodeVersions c versions = .ok bytes)
    (hlen : body.length < 2^32) (hsize : bytes.length < 2^64)
    (hspelled : ∀ fi ∈ versions, Spelled fi ∧ fi.versionId ≠ nilUuid) :
    ReadsBack c versions bytes := by
  have htail : (inlineTail versions).length < 2^64 := by
    simp only [encodeVersions, hb] at h
    obtain rfl : frame c.xxh64 body ++ inlineTail versions = bytes := Except.ok.inj h
    rw [List.length_append] at hsize
    omega
  have hstored : versions.map (fun fi => recordOf (Int32.ofNat versions.length) (stored fi)) =
      versions.map (recordOf (Int32.ofNat versions.length)) := by
    apply List.map_congr_left
    intro fi hfi
    rw [((hspelled fi hfi).1.canonical (hspelled fi hfi).2).stored_eq]
  refine ⟨_,decodeAll_encodeVersions c versions body bytes hb h hlen htail,?_,?_⟩
  · rw [newestRecordFirst]
    exact List.pairwise_insertionSort _ _
  · intro t
    rw [hstored]
    exact newestRecordFirst_reads _ versions t

theorem lowercaseUuid_of (h : List Char) (hlen : h.length = 32) (hhex : h.all lowerHex = true) :
    LowercaseUuid (String.ofList (dashed h)) :=
  ⟨h,hlen,List.all_eq_true.mp hhex,String.toList_ofList⟩

theorem inlinePut_spelled (h : List Char) (hlen : h.length = 32) (hhex : h.all lowerHex = true)
    (etag : String) (modTimeMs : UInt64) (byte : UInt8) :
    Spelled (inlinePut (String.ofList (dashed h)) etag modTimeMs byte) :=
  ⟨.inr (lowercaseUuid_of h hlen hhex),.inl rfl⟩

def twoBody : Bytes := (encodeBody putCodec [secondPut,firstPut]).toOption.getD []

def twoBytes : Bytes := (encodeVersions putCodec [secondPut,firstPut]).toOption.getD []

theorem twoVersions_readBack :
    encodeVersions putCodec [secondPut,firstPut] = .ok twoBytes ∧ twoBody.length < 2^32 ∧
      ReadsBack putCodec [secondPut,firstPut] twoBytes := by
  obtain ⟨hbody,hbytes,hlen,hsize⟩ : encodeBody putCodec [secondPut,firstPut] = .ok twoBody ∧
      encodeVersions putCodec [secondPut,firstPut] = .ok twoBytes ∧ twoBody.length < 2^32 ∧
      twoBytes.length < 2^64 := by
    decide +kernel
  refine ⟨hbytes,hlen,canonical_readsBack putCodec _ twoBody twoBytes hbody hbytes hlen hsize ?_⟩
  have hfirst : Spelled firstPut := inlinePut_spelled "11111111111141118111111111111111".toList
    (by decide) (by decide) _ _ _
  have hsecond : Spelled secondPut := inlinePut_spelled "22222222222242228222222222222222".toList
    (by decide) (by decide) _ _ _
  intro fi hfi
  rcases List.mem_pair.mp hfi with rfl | rfl
  · exact ⟨hsecond,by decide +kernel⟩
  · exact ⟨hfirst,by decide +kernel⟩

def nilPut : FileInfo := inlinePut nilUuid "0cc175b9c0f1b6a831c399e269772661" 1 97

def nilCodec : MetaCodec :=
  tableCodec [recordsOf [nilPut]] Lib.Xxh64.xxh64 (by decide +kernel)

def nilBody : Bytes := (encodeBody nilCodec [nilPut]).toOption.getD []

def nilBytes : Bytes := (encodeVersions nilCodec [nilPut]).toOption.getD []

/-- The nil UUID is accepted as a version id and comes back as `null`. -/
theorem nilPut_not_readBack :
    encodeBody nilCodec [nilPut] = .ok nilBody ∧ encodeVersions nilCodec [nilPut] = .ok nilBytes ∧
      nilBody.length < 2^32 ∧ Spelled nilPut ∧ ¬ReadsBack nilCodec [nilPut] nilBytes := by
  obtain ⟨hbody,hbytes,hlen,hids⟩ : encodeBody nilCodec [nilPut] = .ok nilBody ∧
      encodeVersions nilCodec [nilPut] = .ok nilBytes ∧ nilBody.length < 2^32 ∧
      (decodeAll nilCodec nilBytes).toOption.map (List.map DecodedRecord.versionId) =
        some ["null"] := by
    decide +kernel
  refine ⟨hbody,hbytes,hlen,?_,?_⟩
  · exact inlinePut_spelled (List.replicate 32 '0') (by decide) (by decide) _ _ _
  · rintro ⟨rs,hrs,-,hfilter⟩
    rw [hrs] at hids
    have hids : rs.map DecodedRecord.versionId = ["null"] := Option.some.inj hids
    have hmem : recordOf (Int32.ofNat 1) nilPut ∈ rs.filter (fun r => r.modTimeMs = 1) := by
      rw [hfilter 1]
      exact List.mem_map_of_mem (List.mem_filter.mpr ⟨List.mem_cons_self,rfl⟩)
    have hid : nilUuid ∈ rs.map DecodedRecord.versionId :=
      List.mem_map_of_mem (List.mem_of_mem_filter hmem)
    rw [hids] at hid
    exact absurd hid (by decide)

end Openlake.XlMetaCanonical
