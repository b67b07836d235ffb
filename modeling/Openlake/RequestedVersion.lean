import Openlake.Buckets
import Openlake.XlMetaCanonical
import Openlake.XlMetaRewrite

/-!
# Finding the version a request names

A request names a version by a text. The text is accepted in any spelling that
has 32 hex digits among dashes, stored as sixteen bytes, and looked up by
comparing texts with the canonical spelling of the stored bytes.
-/

set_option autoImplicit false

namespace Openlake.RequestedVersion
open Openlake.Types VersionIds XlMeta XlMetaRoundTrip XlMetaCanonical XlMetaRewrite RecordBytes
open Lib.Outcomes

inductive AppError where
  | badRequest (msg : String)
  deriving DecidableEq, Repr

def isAsciiHexdigit (c : Char) : Bool := (toDigit c).isSome

def parseVersionId : Option String → Except AppError (Option String)
  | none => .ok none
  | some raw =>
    let s := String.ofList (Buckets.trim raw.toList)
    if s = "" then .ok none
    else if s = nullVersionId then .ok (some s)
    else
      let hexChars := (s.toList.filter (fun c => c ≠ '-')).length
      let allHex := s.toList.all (fun c => c = '-' || isAsciiHexdigit c)
      if hexChars = 32 ∧ allHex then .ok (some s)
      else .error (.badRequest
        "invalid versionId: must be empty, the literal \"null\", or a canonical UUID")

theorem hexText_of_all {s : String} (hlen : (s.toList.filter (fun c => c ≠ '-')).length = 32)
    (hhex : s.toList.all (fun c => c = '-' || isAsciiHexdigit c) = true) : HexText s := by
  refine ⟨hlen,fun c hc => ?_⟩
  obtain ⟨hmem,hne⟩ := List.mem_filter.mp hc
  have hdigit : c = '-' ∨ isAsciiHexdigit c = true := by
    simpa using List.all_eq_true.mp hhex c hmem
  exact (isHex_iff c).mpr (Option.isSome_iff_exists.mp (hdigit.resolve_left (by simpa using hne)))

theorem parseVersionId_bytes {s t : String} (h : parseVersionId (some s) = .ok (some t))
    (field : String) : ∃ b, parseUuidBytes t field = .ok b := by
  rw [parseVersionId] at h
  dsimp only at h
  split_ifs at h with hempty hnull hhex
  · cases h
  · cases h
    exact ⟨nil,by rw [parseUuidBytes, if_pos (.inr hnull)]⟩
  · cases h
    exact parseUuidBytes_hex field (hexText_of_all hhex.1 hhex.2)

/-- The spelling in which version ids are stored: `null`, or a lowercase dashed UUID other
than the nil one. -/
def CanonicalId (t : String) : Prop := t = nullVersionId ∨ LowercaseUuid t ∧ t ≠ nilUuid

theorem lowercaseUuid_formatUuidHex (b : Uuid) : LowercaseUuid (formatUuidHex b) := by
  refine ⟨b.toList.flatMap hexByte,by rw [length_hexDigits]; simp,fun c hc => ?_,
    formatUuidHex_toList b⟩
  obtain ⟨x,-,hx⟩ := List.mem_flatMap.mp hc
  have hdigit : ∀ n < 16, lowerHex (hexDigit n) = true := by decide
  have hlt := x.toNat_lt
  simp only [hexByte, List.mem_cons, List.not_mem_nil, or_false] at hx
  rcases hx with rfl | rfl
  · exact hdigit _ (by omega)
  · exact hdigit _ (by omega)

theorem canonicalId_iff (t : String) : CanonicalId t ↔ ∃ b, t = formatVersionIdBytes b := by
  constructor
  · rintro (rfl | ⟨hlower,hnil⟩)
    · exact ⟨nil,by rw [formatVersionIdBytes, if_pos rfl]⟩
    · exact formatVersionIdBytes_of_lowercase t hlower hnil
  · rintro ⟨b,rfl⟩
    rw [formatVersionIdBytes]
    split_ifs with hb
    · exact .inl rfl
    · refine .inr ⟨lowercaseUuid_formatUuidHex b,fun h => hb ?_⟩
      have hparse := parseUuidBytes_formatUuidHex b ""
      rw [h, ← formatUuidHex_nil, parseUuidBytes_formatUuidHex] at hparse
      exact (Parsed.ok.inj hparse).symm

section Lookup

variable (c : MetaCodec) (versions : List FileInfo) (bytes : Bytes)

/-- The lookup returns a version with the id `b`, the newest one if there are several. -/
def Found (t : String) (b : Uuid) : Prop :=
  ∃ fi ∈ versions, parseUuidBytes fi.versionId "version_id" = .ok b ∧
    (∀ g ∈ versions, parseUuidBytes g.versionId "version_id" = .ok b →
      g.modTimeMs ≤ fi.modTimeMs) ∧
    findVersion c bytes t = .ok (some (recordOf (Int32.ofNat versions.length) (stored fi)))

variable {c versions bytes}

variable {b : Uuid} {fi : FileInfo}

theorem stored_versionId (h : parseUuidBytes fi.versionId "version_id" = .ok b) :
    (stored fi).versionId = formatVersionIdBytes b := by
  show respell formatVersionIdBytes "version_id" fi.versionId = _
  rw [respell, h, parsed]

variable {body : Bytes}

theorem encoded_versionId (h : encodeBody c versions = .ok body)
    (hfi : fi ∈ versions) : ∃ b, parseUuidBytes fi.versionId "version_id" = .ok b := by
  obtain ⟨-,-,records,hrecords,-⟩ := encodeBody_eq_ok c versions body h
  obtain ⟨v,-,pos,hplaced⟩ :=
    forall₂_mem_right (encodeRecords_placed versions [] [] records hrecords).flip fi hfi
  have hv := hplaced.encodes.versionId
  cases hp : parseUuidBytes fi.versionId "version_id" with
  | ok b => exact ⟨b,rfl⟩
  | error e => rw [hp, parsed] at hv; cases hv
  | panicked => rw [hp, parsed] at hv; cases hv

variable {t : String} {rs : List DecodedRecord} {r : DecodedRecord}

theorem versionId_of_find? (h : rs.find? (fun r => r.versionId = t) = some r)
    : r.versionId = t := by
  simpa using List.find?_some h

theorem Found.canonical (h : Found c versions bytes t b) :
    CanonicalId t := by
  obtain ⟨fi,-,hb,-,hfound⟩ := h
  obtain ⟨rs,-,hfind⟩ := bind_eq_ok.mp hfound
  have hid := versionId_of_find? (Except.ok.inj hfind)
  exact (canonicalId_iff t).mpr ⟨b,hid.symm.trans (stored_versionId hb)⟩

theorem Found.short (h : Found c versions bytes t b)
    (hbody : encodeBody c versions = .ok body) (hbytes : encodeVersions c versions = .ok bytes)
    (hrmp : ∀ records, encodeRecords 0 versions = .ok records → Serialises c records) :
    body.length < 2^32 := by
  obtain ⟨fi,-,-,-,hfound⟩ := h
  obtain ⟨rs,hdecoded,-⟩ := bind_eq_ok.mp hfound
  simp only [encodeVersions, hbody] at hbytes
  obtain rfl : frame c.xxh64 body ++ inlineTail versions = bytes := Except.ok.inj hbytes
  obtain ⟨-,-,records,hrecords,hencode⟩ := encodeBody_eq_ok c _ body hbody
  exact short_of_decodeAll (hrmp records hrecords) hencode hdecoded

theorem find?_newest (hsorted : rs.Pairwise (fun a b => b.modTimeMs ≤ a.modTimeMs))
    (h : rs.find? (fun r => r.versionId = t) = some r) :
    ∀ r' ∈ rs, r'.versionId = t → r'.modTimeMs ≤ r.modTimeMs := by
  induction rs with
  | nil => simp at h
  | cons a rest ih =>
    obtain ⟨hhead,hrest⟩ := List.pairwise_cons.mp hsorted
    by_cases ha : a.versionId = t
    · rw [List.find?_cons_of_pos (by simpa using ha)] at h
      obtain rfl := Option.some.inj h
      intro r' hr' _
      rcases List.mem_cons.mp hr' with rfl | hr'
      · exact UInt64.le_refl _
      · exact hhead r' hr'
    · rw [List.find?_cons_of_neg (by simpa using ha)] at h
      intro r' hr' ht
      rcases List.mem_cons.mp hr' with rfl | hr'
      · exact absurd ht ha
      · exact ih hrest h r' hr' ht

theorem found_of_canonical (hbody : encodeBody c versions = .ok body)
    (hbytes : encodeVersions c versions = .ok bytes) (hlen : body.length < 2^32)
    (hsize : bytes.length < 2^64) (hfi : fi ∈ versions)
    (hb : parseUuidBytes fi.versionId "version_id" = .ok b) :
    Found c versions bytes (formatVersionIdBytes b) b := by
  have htail : (inlineTail versions).length < 2^64 := by
    have h := hbytes
    simp only [encodeVersions, hbody] at h
    obtain rfl : frame c.xxh64 body ++ inlineTail versions = bytes := Except.ok.inj h
    exact lt_of_le_of_lt (by simp) hsize
  have hdecoded := decodeAll_encodeVersions c versions body bytes hbody hbytes hlen htail
  have hmem (r : DecodedRecord) : r ∈ newestRecordFirst (versions.map fun fi =>
      recordOf (Int32.ofNat versions.length) (stored fi)) ↔
      ∃ g ∈ versions, recordOf (Int32.ofNat versions.length) (stored g) = r := by
    rw [newestRecordFirst, List.mem_insertionSort, List.mem_map]
  have hsome : ((newestRecordFirst (versions.map fun fi =>
      recordOf (Int32.ofNat versions.length) (stored fi))).find?
      fun r => r.versionId = formatVersionIdBytes b).isSome := by
    rw [List.find?_isSome]
    exact ⟨_,(hmem _).mpr ⟨fi,hfi,rfl⟩,decide_eq_true (stored_versionId hb)⟩
  obtain ⟨r,hr⟩ := Option.isSome_iff_exists.mp hsome
  obtain ⟨g,hg,rfl⟩ := (hmem r).mp (List.mem_of_find?_eq_some hr)
  obtain ⟨b',hb'⟩ := encoded_versionId hbody hg
  have hid : formatVersionIdBytes b' = formatVersionIdBytes b :=
    (stored_versionId hb').symm.trans (versionId_of_find? hr)
  obtain rfl := formatVersionIdBytes_injective hid
  refine ⟨g,hg,hb',fun g' hg' hb'' => ?_,by rw [findVersion, hdecoded]; exact congrArg _ hr⟩
  exact find?_newest (List.pairwise_insertionSort _ _) hr _ ((hmem _).mpr ⟨g',hg',rfl⟩)
    (stored_versionId hb'')

/-- The version a request names is found exactly when the request spells its id as it is
stored and the encoded file is readable. -/
theorem requested_version_found_iff (c : MetaCodec) {s t : String}
    (hs : parseVersionId (some s) = .ok (some t)) :
    ∃ b, parseUuidBytes t "version_id" = .ok b ∧
      ∀ {versions : List FileInfo} {body bytes : Bytes} {fi : FileInfo},
        encodeBody c versions = .ok body → encodeVersions c versions = .ok bytes →
        (∀ records, encodeRecords 0 versions = .ok records → Serialises c records) →
        bytes.length < 2^64 →
        fi ∈ versions → parseUuidBytes fi.versionId "version_id" = .ok b →
        (Found c versions bytes t b ↔ CanonicalId t ∧ body.length < 2^32) := by
  obtain ⟨b,hb⟩ := parseVersionId_bytes hs "version_id"
  refine ⟨b,hb,fun {versions body bytes fi} hbody hbytes hrmp hsize hfi hid => ?_⟩
  constructor
  · exact fun h => ⟨h.canonical,h.short hbody hbytes hrmp⟩
  · rintro ⟨hcanonical,hlen⟩
    obtain ⟨b',rfl⟩ := (canonicalId_iff t).mp hcanonical
    rw [parseUuidBytes_formatVersionIdBytes] at hb
    obtain rfl := Parsed.ok.inj hb
    exact found_of_canonical hbody hbytes hlen hsize hfi hid

end Lookup

def firstBody : Bytes := (encodeBody firstCodec [firstPut]).toOption.getD []

theorem first_requested : parseVersionId (some firstPut.versionId) = .ok (some firstPut.versionId) ∧
    ∃ b, Found firstCodec [firstPut] firstBytes firstPut.versionId b := by
  have hparse : parseVersionId (some firstPut.versionId) = .ok (some firstPut.versionId) := by
    decide +kernel
  obtain ⟨b,hb,hfound⟩ := requested_version_found_iff firstCodec hparse
  -- one evaluation of the encoder for all that is needed of its bytes
  obtain ⟨hbody,hbytes,hsize,hshort⟩ : encodeBody firstCodec [firstPut] = .ok firstBody ∧
      encodeVersions firstCodec [firstPut] = .ok firstBytes ∧ firstBytes.length < 2^64 ∧
      firstBody.length < 2^32 := by decide +kernel
  have hrecords : encodeRecords 0 [firstPut] = .ok firstRecords := by decide +kernel
  have hcanonical : CanonicalId firstPut.versionId := (canonicalId_iff _).mpr
    ⟨⟨#[17,17,17,17,17,17,65,17,129,17,17,17,17,17,17,17],rfl⟩,by decide +kernel⟩
  refine ⟨hparse,b,(hfound hbody hbytes (fun records hr => ?_) hsize (by simp) hb).mpr
    ⟨hcanonical,hshort⟩⟩
  cases hrecords.symm.trans hr
  exact firstCodec_serialises

/-- The id of the stored version without its dashes is accepted, has the same bytes, and is
not found. -/
theorem undashed_not_found :
    let s := "11111111111141118111111111111111"
    parseVersionId (some s) = .ok (some s) ∧
      encodeVersions firstCodec [firstPut] = .ok firstBytes ∧
      parseUuidBytes s "version_id" = parseUuidBytes firstPut.versionId "version_id" ∧
      findVersion firstCodec firstBytes firstPut.versionId =
        .ok (some (recordOf 1 (stored firstPut))) ∧
      findVersion firstCodec firstBytes s = .ok none := by
  decide +kernel

end Openlake.RequestedVersion
