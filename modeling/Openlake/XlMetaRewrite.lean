import Openlake.RecordBytes
import Openlake.XlMetaRoundTrip

/-!
# Writing decoded versions again

The checks made on reading and on writing are not the same: a decoded part may
have a negative actual size and a decoded object with a size may have neither
inline bytes nor a data directory, and such versions cannot be written again.
Otherwise what is decoded is encoded and decodes to the same, as long as the new
body fits its length field.
-/

set_option autoImplicit false

namespace Openlake.XlMetaRewrite
open Openlake.Types VersionIds XlMeta XlMetaRoundTrip RecordBytes Lib.ByteCodec Lib.Outcomes

def fileInfos (volume path : String) (rs : List DecodedRecord) : List FileInfo :=
  rs.map (fun r => fileInfoFromRecord r volume path)

def Rewrites (c : MetaCodec) (volume path : String) (rs : List DecodedRecord) : Prop :=
  ∃ bytes, encodeVersions c (fileInfos volume path rs) = .ok bytes ∧ decodeAll c bytes = .ok rs

structure Rewritable (c : MetaCodec) (volume path : String) (rs : List DecodedRecord) : Prop where
  actualSizes : ∀ r ∈ rs, ∀ p ∈ r.parts, 0 ≤ p.actualSize
  dataDirs : ∀ r ∈ rs, r.deleted = false → 0 < r.size → r.inline = none → r.dataDir ≠ ""
  body : ∀ records body, encodeRecords 0 (fileInfos volume path rs) = .ok records →
    c.rmp.encode records = .ok body → body.length < 2^32

/-- The serialiser writes the records, and reads nothing from a part of what it wrote. -/
def Serialises (c : MetaCodec) (records : List VersionRecord) : Prop :=
  ∃ body, c.rmp.encode records = .ok body ∧
    ∀ n < body.length, ∀ rs, c.rmp.decode (body.take n) ≠ .ok rs

structure Valid (v : VersionRecord) : Prop where
  size : 0 ≤ v.size
  modTime : v.modTime ≠ 0
  erasure : ErasureOk v.erasure
  marker : v.ty = 1 → v.parts = [] ∧ v.size = 0 ∧ v.inlineLength = 0
  parts : v.ty ≠ 1 → 0 < v.size → v.parts ≠ []
  inlineDir : 0 < v.inlineLength → v.dataDir = nil
  inlineSize : 0 < v.inlineLength → v.size.toUInt64 = v.inlineLength
  partSizes : ∀ p ∈ v.parts, 0 < p.number ∧ 0 ≤ p.size

theorem validateDecodedVersion_valid {v : VersionRecord} (h : validateDecodedVersion v = .ok ()) :
    Valid v := by
  simp only [validateDecodedVersion, unit_bind_eq_ok, refuse_eq_ok, mapError_eq_ok,
    validateErasure_eq_ok, validatePartsDecoded_eq_ok, not_and, Int64.not_lt, not_not] at h
  obtain ⟨-,h2,h3,h4,h5,h6,h7,h8,h9,h10,h11⟩ := h
  exact
    { size := h2
      modTime := h3
      erasure := h4
      marker := fun hd => ⟨h5 hd,h6 hd,h7 hd⟩
      parts := h8
      inlineDir := h9
      inlineSize := h10
      partSizes := h11 }

theorem decodeAll_eq_map {c : MetaCodec} {bytes : Bytes} {rs : List DecodedRecord}
    (h : decodeAll c bytes = .ok rs) : ∃ versions crcEnd,
      crcEnd = headerLen+bin32HeaderLen+beValue (slice bytes (headerLen+1) (headerLen+5))+crcLen ∧
      versions ≠ [] ∧ versions.Pairwise (fun a b => b.modTime ≤ a.modTime) ∧ (∀ v ∈ versions, Valid v) ∧
      (∀ v ∈ versions, InlineFits bytes crcEnd v) ∧
      rs = versions.map (decodedOf bytes crcEnd (Int32.ofNat versions.length)) := by
  simp only [decodeAll, unit_bind_eq_ok] at h
  obtain ⟨-,-,-,-,-,-,-,-,h⟩ := h
  obtain ⟨onDisk,-,h⟩ := bind_eq_ok.mp h
  simp only [unit_bind_eq_ok, refuse_eq_ok, checkAll_eq_ok, decodeRecords_eq_ok] at h
  obtain ⟨hne,hvalid,hfits,rfl⟩ := h
  refine ⟨newestFirst onDisk,_,rfl,?_,?_,fun v hv => validateDecodedVersion_valid (hvalid v hv),
    hfits,rfl⟩
  · intro hnil
    apply hne
    have := List.length_insertionSort (fun a b : VersionRecord => b.modTime ≤ a.modTime) onDisk
    rw [show List.insertionSort _ onDisk = [] from hnil] at this
    exact List.eq_nil_of_length_eq_zero this.symm
  · exact List.pairwise_insertionSort _ _

section Record

variable {bytes : Bytes} {crcEnd : ℕ} {total : Int32} {v : VersionRecord} {volume path : String}

theorem inlineBytes_decoded :
    inlineBytes (fileInfoFromRecord (decodedOf bytes crcEnd total v) volume path) =
      if 0 < v.inlineLength then slice bytes (crcEnd+v.inlineOffset.toNat)
        (crcEnd+(v.inlineOffset.toNat+v.inlineLength.toNat)) else [] := by
  by_cases hpos : 0 < v.inlineLength
  · simp [inlineBytes, fileInfoFromRecord, decodedOf, hpos]
  · simp [inlineBytes, fileInfoFromRecord, decodedOf, hpos]

theorem frameTotal_decoded (hfits : InlineFits bytes crcEnd v) :
    frameTotal (fileInfoFromRecord (decodedOf bytes crcEnd total v) volume path) =
      v.inlineLength.toNat := by
  rw [frameTotal, inlineBytes_decoded]
  split_ifs with hpos
  · have := (hfits hpos).2
    have hlt : 0 < v.inlineLength.toNat := UInt64.lt_iff_toNat_lt.mp hpos
    rw [slice, List.length_take, List.length_drop]
    omega
  · have hzero : ¬ 0 < v.inlineLength.toNat := fun h => hpos (UInt64.lt_iff_toNat_lt.mpr h)
    rw [List.length_nil]
    omega

theorem hasInline_decoded :
    hasInline (fileInfoFromRecord (decodedOf bytes crcEnd total v) volume path) = true ↔
      0 < v.inlineLength := by
  by_cases hpos : 0 < v.inlineLength
  · simp [hasInline, fileInfoFromRecord, decodedOf, hpos]
  · simp [hasInline, fileInfoFromRecord, decodedOf, hpos]

theorem recordOf_decoded (hfits : InlineFits bytes crcEnd v) :
    recordOf total (stored (fileInfoFromRecord (decodedOf bytes crcEnd total v) volume path)) =
      decodedOf bytes crcEnd total v := by
  have hcanonical : Canonical (fileInfoFromRecord (decodedOf bytes crcEnd total v) volume path) :=
    ⟨⟨v.versionId,rfl⟩,⟨v.dataDir,rfl⟩⟩
  have hlen : frameTotal (fileInfoFromRecord (decodedOf bytes crcEnd total v) volume path) =
      v.inlineLength.toNat := frameTotal_decoded hfits
  rw [frameTotal, inlineBytes_decoded] at hlen
  rw [hcanonical.stored_eq, recordOf, inlineBytes_decoded]
  by_cases hpos : 0 < v.inlineLength
  · have hlt : 0 < v.inlineLength.toNat := UInt64.lt_iff_toNat_lt.mp hpos
    rw [if_pos hpos] at hlen ⊢
    rw [if_neg (fun hnil => by rw [hnil] at hlen; simp at hlen; omega)]
    simp [fileInfoFromRecord, decodedOf, hpos]
  · rw [if_neg hpos, if_pos rfl]
    simp [fileInfoFromRecord, decodedOf, hpos]

theorem validateForEncode_decoded (hvalid : Valid v) (hfits : InlineFits bytes crcEnd v) :
    validateForEncode (fileInfoFromRecord (decodedOf bytes crcEnd total v) volume path) = .ok () ↔
      (∀ p ∈ v.parts, 0 ≤ p.actualSize) ∧
        (v.ty ≠ 1 → 0 < v.size → v.inlineLength = 0 → formatDataDirBytes v.dataDir ≠ "") := by
  constructor
  · intro h
    have he := validateForEncode_encodable _ h
    refine ⟨fun p hp => (he.partSizes p hp).2.2,fun hty hsize hzero => ?_⟩
    refine he.dataDir (by simpa [fileInfoFromRecord, decodedOf] using hty) hsize ?_
    rw [Bool.eq_false_iff, Ne, hasInline_decoded, hzero]
    decide
  · rintro ⟨hactual,hdir⟩
    have hty : (decodedOf bytes crcEnd total v).deleted = true ↔ v.ty = 1 := by simp [decodedOf]
    have hobject (hd : (decodedOf bytes crcEnd total v).deleted = false) : v.ty ≠ 1 :=
      fun h => absurd (hd.symm.trans (hty.mpr h)) (by decide)
    simp only [validateForEncode, unit_bind_eq_ok, refuse_eq_ok, validateErasure_eq_ok,
      validatePartsForEncode_eq_ok, not_and, Int64.not_lt, not_not, hasInline_decoded,
      frameTotal_decoded hfits]
    refine ⟨hvalid.size,hvalid.modTime,hvalid.erasure,fun hd => (hvalid.marker (hty.mp hd)).1,
      fun hd => (hvalid.marker (hty.mp hd)).2.1,fun hd hpos => ?_,fun hd hsize => ?_,
      fun hpos => ?_,fun hd hsize hno => ?_,fun hpos => ?_,
      fun p hp => ⟨(hvalid.partSizes p hp).1,(hvalid.partSizes p hp).2,hactual p hp⟩⟩
    · rw [(hvalid.marker (hty.mp hd)).2.2] at hpos
      exact absurd hpos (by decide)
    · exact hvalid.parts (hobject hd) hsize
    · show formatDataDirBytes v.dataDir = ""
      rw [hvalid.inlineDir hpos]
      rfl
    · refine hdir (hobject hd) hsize ?_
      have hzero : ¬ 0 < v.inlineLength := by rwa [Bool.eq_false_iff, Ne, hasInline_decoded] at hno
      exact UInt64.toNat_inj.mp (Nat.eq_zero_of_not_pos fun h => hzero (UInt64.lt_iff_toNat_lt.mpr h))
    · show Int64.ofNat v.inlineLength.toNat = v.size
      rw [← hvalid.inlineSize hpos]
      simp [Int64.ofNat]

end Record

section Versions

variable {c : MetaCodec} {volume path : String}

theorem encodeRecords_spelled (fis : List FileInfo) (h : ∀ fi ∈ fis, Canonical fi) (tailPos : ℕ) :
    ∃ records, encodeRecords tailPos fis = .ok records := by
  induction fis generalizing tailPos with
  | nil => exact ⟨[],rfl⟩
  | cons fi fis ih =>
    obtain ⟨u,hu⟩ := (h fi (by simp)).versionId
    obtain ⟨d,hd⟩ := (h fi (by simp)).dataDir
    obtain ⟨records,hrecords⟩ := ih (fun x hx => h x (List.mem_cons_of_mem _ hx))
      (tailPos+frameTotal fi)
    simp only [encodeRecords, encodeRecord, hu, hd, parseUuidBytes_formatVersionIdBytes,
      parseUuidBytes_formatDataDirBytes, hrecords]
    exact ⟨_,rfl⟩

variable {rs : List DecodedRecord} {body tail : Bytes}

theorem decodeAll_cut (h : decodeAll c (frame c.xxh64 body ++ tail) = .ok rs) :
    ∃ records, c.rmp.decode (body.take (body.length%2^32)) = .ok records := by
  obtain ⟨-,-,-,-,hlength⟩ := frame_head_fields c.xxh64 body tail
  have hle : body.length%2^32 ≤ body.length := Nat.mod_le _ _
  have hcut : slice (frame c.xxh64 body ++ tail) (headerLen+bin32HeaderLen)
      (headerLen+bin32HeaderLen+body.length%2^32) = body.take (body.length%2^32) := by
    have hbody := (frame_body_fields c.xxh64 body tail).1
    rw [slice, Nat.add_sub_cancel_left] at hbody ⊢
    rw [← Nat.min_eq_left hle, ← List.take_take, hbody, Nat.min_eq_left hle]
  simp only [decodeAll, unit_bind_eq_ok, hlength, hcut] at h
  obtain ⟨-,-,-,-,-,-,-,-,h⟩ := h
  obtain ⟨records,hrecords,-⟩ := bind_eq_ok.mp h
  exact ⟨records,mapError_eq_ok.mp hrecords⟩

theorem short_of_decodeAll {records : List VersionRecord}
    (hrmp : Serialises c records)
    (hencode : c.rmp.encode records = .ok body)
    (h : decodeAll c (frame c.xxh64 body ++ tail) = .ok rs) : body.length < 2^32 := by
  by_contra hlong
  obtain ⟨written,hwritten,hpart⟩ := hrmp
  cases hencode.symm.trans hwritten
  obtain ⟨cut,hcut⟩ := decodeAll_cut h
  have hlt : body.length%2^32 < body.length :=
    lt_of_lt_of_le (Nat.mod_lt _ (by norm_num)) (Nat.not_lt.mp hlong)
  exact hpart _ hlt cut hcut

theorem Rewrites.rewritable (h : Rewrites c volume path rs)
    (hrmp : ∀ records, encodeRecords 0 (fileInfos volume path rs) = .ok records →
      Serialises c records) : Rewritable c volume path rs := by
  obtain ⟨out,hout,hback⟩ := h
  obtain ⟨body,hbody,hframe⟩ := bind_eq_ok.mp hout
  obtain rfl : frame c.xxh64 body ++ inlineTail (fileInfos volume path rs) = out :=
    Except.ok.inj hframe
  obtain ⟨-,hencodable,records,hrecords,hencode⟩ := encodeBody_eq_ok c _ body hbody
  have hfi (r : DecodedRecord) (hr : r ∈ rs) : Encodable (fileInfoFromRecord r volume path) :=
    hencodable _ (List.mem_map_of_mem hr)
  refine ⟨fun r hr p hp => ((hfi r hr).partSizes p hp).2.2,fun r hr hd hpos hnone => ?_,
    fun records' body' hrecords' hencode' => ?_⟩
  · exact (hfi r hr).dataDir hd hpos (by simp [hasInline, fileInfoFromRecord, hnone])
  · cases hrecords.symm.trans hrecords'
    cases hencode.symm.trans hencode'
    exact short_of_decodeAll (hrmp records hrecords) hencode hback

section Decoded

variable {bytes : Bytes} {crcEnd : ℕ} {versions : List VersionRecord}
  (hsorted : versions.Pairwise (fun a b => b.modTime ≤ a.modTime))
  (hvalid : ∀ v ∈ versions, Valid v) (hfits : ∀ v ∈ versions, InlineFits bytes crcEnd v)

include hvalid hfits in
theorem Rewritable.accepted {total : Int32}
    (h : Rewritable c volume path (versions.map (decodedOf bytes crcEnd total))) :
    ∀ fi ∈ fileInfos volume path (versions.map (decodedOf bytes crcEnd total)),
      validateForEncode fi = .ok () := by
  intro fi hfi
  obtain ⟨r,hr,rfl⟩ := List.mem_map.mp hfi
  obtain ⟨v,hv,rfl⟩ := List.mem_map.mp hr
  rw [validateForEncode_decoded (hvalid v hv) (hfits v hv)]
  refine ⟨h.actualSizes _ hr,fun hty hsize hzero => h.dataDirs _ hr ?_ hsize ?_⟩
  · simpa [decodedOf] using hty
  · simp [decodedOf, hzero]

include hsorted hfits in
theorem newestRecordFirst_decoded (total : Int32) :
    newestRecordFirst ((fileInfos volume path (versions.map (decodedOf bytes crcEnd total))).map
        (fun fi => recordOf total (stored fi))) =
      versions.map (decodedOf bytes crcEnd total) := by
  have hsame : (fileInfos volume path (versions.map (decodedOf bytes crcEnd total))).map
      (fun fi => recordOf total (stored fi)) = versions.map (decodedOf bytes crcEnd total) := by
    rw [fileInfos, List.map_map, List.map_map]
    apply List.map_congr_left
    intro v hv
    exact recordOf_decoded (hfits v hv)
  rw [hsame, newestRecordFirst]
  apply List.Pairwise.insertionSort_eq
  rw [List.pairwise_map]
  exact hsorted

end Decoded

theorem rewrites_of_accepted (hne : rs ≠ [])
    (haccepted : ∀ fi ∈ fileInfos volume path rs, validateForEncode fi = .ok ())
    (hcanonical : ∀ fi ∈ fileInfos volume path rs, Canonical fi)
    (hback : newestRecordFirst ((fileInfos volume path rs).map
      (fun fi => recordOf (Int32.ofNat rs.length) (stored fi))) = rs)
    (h : Rewritable c volume path rs)
    (hrmp : ∀ records, encodeRecords 0 (fileInfos volume path rs) = .ok records →
      Serialises c records)
    (hsize : ∀ out, encodeVersions c (fileInfos volume path rs) = .ok out → out.length < 2^64) :
    Rewrites c volume path rs := by
  obtain ⟨records,hrecords⟩ := encodeRecords_spelled _ hcanonical 0
  obtain ⟨body,hencode,-⟩ := hrmp records hrecords
  have hbody : encodeBody c (fileInfos volume path rs) = .ok body := by
    simp only [encodeBody, unit_bind_eq_ok, refuse_eq_ok, checkAll_eq_ok]
    refine ⟨by simpa [fileInfos] using hne,haccepted,bind_eq_ok.mpr ⟨records,hrecords,?_⟩⟩
    exact mapError_eq_ok.mpr hencode
  have hout : encodeVersions c (fileInfos volume path rs) =
      .ok (frame c.xxh64 body ++ inlineTail (fileInfos volume path rs)) := by
    rw [encodeVersions, hbody]
    rfl
  have htail : (inlineTail (fileInfos volume path rs)).length < 2^64 := by
    have := hsize _ hout
    rw [List.length_append] at this
    omega
  refine ⟨_,hout,?_⟩
  rw [decodeAll_encodeVersions c _ body _ hbody hout (h.body records body hrecords hencode) htail,
    fileInfos, List.length_map]
  exact congrArg Except.ok hback

/-- Decoded versions can be written again, and are the same when they are read, exactly when no part
has a negative actual size, every object with a size has inline bytes or a data directory, and the
new body fits its length field. -/
theorem rewrites_iff {bytes : Bytes} {rs : List DecodedRecord} (h : decodeAll c bytes = .ok rs)
    (hrmp : ∀ records, encodeRecords 0 (fileInfos volume path rs) = .ok records →
      Serialises c records)
    (hsize : ∀ out, encodeVersions c (fileInfos volume path rs) = .ok out → out.length < 2^64) :
    Rewrites c volume path rs ↔ Rewritable c volume path rs := by
  obtain ⟨versions,crcEnd,-,hne,hsorted,hvalid,hfits,rfl⟩ := decodeAll_eq_map h
  refine ⟨fun hback => hback.rewritable hrmp,fun hok => ?_⟩
  refine rewrites_of_accepted (by simpa using hne) (hok.accepted hvalid hfits) (fun fi hfi => ?_) ?_
    hok hrmp hsize
  · obtain ⟨r,hr,rfl⟩ := List.mem_map.mp hfi
    obtain ⟨v,-,rfl⟩ := List.mem_map.mp hr
    exact ⟨⟨v.versionId,rfl⟩,⟨v.dataDir,rfl⟩⟩
  · rw [List.length_map]
    exact newestRecordFirst_decoded hsorted hfits _

end Versions

def firstRecords : List VersionRecord := recordsOf [firstPut]

def firstCodec : MetaCodec := tableCodec [firstRecords] Lib.Xxh64.xxh64 (by simp)

def firstBytes : Bytes := (encodeVersions firstCodec [firstPut]).toOption.getD []

def firstDecoded : List DecodedRecord := (decodeAll firstCodec firstBytes).toOption.getD []

theorem firstCodec_serialises : Serialises firstCodec firstRecords := by
  refine ⟨onDiskMeta firstRecords,by simp [firstCodec, tableCodec, tableEncode],fun n hn rs hrs => ?_⟩
  have hbody : onDiskMeta firstRecords = (onDiskMeta firstRecords).take n := by
    by_contra hne
    simp [firstCodec, tableCodec, tableDecode, hne] at hrs
  have hlen := congrArg List.length hbody
  rw [List.length_take] at hlen
  omega

theorem first_rewrites : decodeAll firstCodec firstBytes = .ok firstDecoded ∧
    (Rewrites firstCodec "b" "k" firstDecoded ↔ Rewritable firstCodec "b" "k" firstDecoded) := by
  obtain ⟨hdecoded,hrecords,hsize⟩ : decodeAll firstCodec firstBytes = .ok firstDecoded ∧
      encodeRecords 0 (fileInfos "b" "k" firstDecoded) = .ok firstRecords ∧
      ((encodeVersions firstCodec (fileInfos "b" "k" firstDecoded)).toOption.getD []).length <
        2^64 := by
    decide +kernel
  refine ⟨hdecoded,rewrites_iff hdecoded (fun records hr => ?_) (fun out hout => ?_)⟩
  · cases hrecords.symm.trans hr
    exact firstCodec_serialises
  · rwa [hout] at hsize

/-- A version whose part has a negative actual size, and one with a size that is nowhere. -/
def oddVersions : List VersionRecord :=
  firstRecords.flatMap (fun v =>
    [{ v with parts := v.parts.map (fun p => { p with actualSize := -1 }) },
      { v with inlineLength := 0 }])

def oddCodec : MetaCodec :=
  tableCodec (oddVersions.map ([·])) Lib.Xxh64.xxh64 (by decide +kernel)

def oddBytes : List Bytes :=
  oddVersions.map (fun v => frame Lib.Xxh64.xxh64 (onDiskMeta [v]) ++ [97])

/-- The decoder accepts both, and neither can be written again. -/
theorem odd_not_rewritten :
    oddBytes.map (fun bytes => (decodeAll oddCodec bytes).toOption.map (fun rs =>
        (rs.length,encodeVersions oddCodec (fileInfos "b" "k" rs)))) =
      [some (1,.error (.encode "parts[0].actual_size must be >= 0, got -1")),
        some (1,.error (.encode
          "non-deleted EC object with size > 0 must have a non-empty data_dir"))] := by
  decide +kernel

end Openlake.XlMetaRewrite
