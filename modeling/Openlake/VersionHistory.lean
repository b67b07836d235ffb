import Openlake.LocalFsEffects
import Openlake.RecordBytes
import Openlake.VersionList

/-!
# Promotions of one key, one after another

Every promotion reads the version list back from the disk, so the list on the
disk is the catalog of the promotions so far as long as each list written fits
its length fields. Which version is the latest is decided by the time stamps
alone: a promotion at the time stamp of another version stays behind it.
-/

set_option autoImplicit false

namespace Openlake.VersionHistory
open Openlake.Types XlMeta XlMetaRoundTrip LocalFs VersionList RecordBytes Lib.FileTree Lib.Effects
open Lib.Outcomes

section Key

variable (c : MetaCodec) (volume path : String)

/-- The key's metadata is the catalog of `live`, and absent without any. -/
def Recorded (t : Disk) (live : List FileInfo) : Prop :=
  (live = [] ∧ Lib.FileTree.readFile t (metaPath volume path) = .error .notFound) ∨
  (live ≠ [] ∧ ∃ raw rs, Lib.FileTree.readFile t (metaPath volume path) = .ok raw ∧
    decodeAll c raw = .ok rs ∧ Catalog live rs)

/-- The list that promoting `fi` writes fits the length fields of the format. -/
def Fits (t : Disk) (fi : FileInfo) : Prop :=
  ∀ raw existing body, priorVersions c volume path t = .ok (raw,existing) →
    encodeBody c (mergeVersions fi volume path existing) = .ok body →
    body.length < 2^32 ∧ (inlineTail (mergeVersions fi volume path existing)).length < 2^64

def SameVolume (t t' : Disk) : Prop :=
  ∀ q, q <+: [volume] ∨ [volume] <+: q → look t' q = look t q

theorem metaPath_volume (q : Path) (hq : q <+: metaPath volume path) :
    q <+: [volume] ∨ [volume] <+: q :=
  List.prefix_or_prefix_of_prefix hq (by simp [metaPath, filePath])

variable {volume} in
theorem SameVolume.readFile {t t' : Disk} (h : SameVolume volume t t') :
    Lib.FileTree.readFile t' (metaPath volume path) =
      Lib.FileTree.readFile t (metaPath volume path) := by
  apply readFile_congr
  · exact h _ (metaPath_volume volume path _ List.prefix_rfl)
  · intro q hq
    rw [ShowsFile, ShowsFile, h q (metaPath_volume volume path q hq)]

variable {c volume path}

variable {live : List FileInfo}

theorem Recorded.congr {t t' : Disk} (h : Recorded c volume path t live)
    (hread : Lib.FileTree.readFile t' (metaPath volume path) =
      Lib.FileTree.readFile t (metaPath volume path)) : Recorded c volume path t' live := by
  rw [Recorded, hread]
  exact h

theorem Recorded.catalog {t : Disk} (h : Recorded c volume path t live)
    (raw : Option Bytes) (existing : List DecodedRecord)
    (hp : priorVersions c volume path t = .ok (raw,existing)) : Catalog live existing := by
  rcases priorVersions_ok c volume path t raw existing hp with ⟨-,rfl,hr⟩ | ⟨bytes,-,hd,hr⟩
  · rcases h with ⟨rfl,-⟩ | ⟨-,raw',rs,hr',-⟩
    · exact ⟨by simp,.nil,by simp,by simp⟩
    · rw [hr] at hr'
      cases hr'
  · rcases h with ⟨-,hr'⟩ | ⟨-,raw',rs,hr',hd',hcat⟩
    · rw [hr] at hr'
      cases hr'
    · rw [hr] at hr'
      cases hr'
      rw [hd] at hd'
      cases hd'
      exact hcat

theorem Recorded.promote {t t' : Disk} {srcVolume srcPath old : String}
    {fi : FileInfo} (h : Recorded c volume path t live) (hvol : srcVolume ≠ volume)
    (hfits : Fits c volume path t fi)
    (hok : renameData c srcVolume srcPath fi volume path t = .ok old t') :
    ∃ raw existing encoded n,
      Promoted c srcVolume srcPath fi volume path t t' old raw existing encoded ∧
      Catalog live existing ∧ Lib.FileTree.readFile t' (metaPath volume path) = .ok encoded ∧
      decodeAll c encoded = .ok (merged n fi volume path existing) := by
  obtain ⟨raw,existing,encoded,hp⟩ := renameData_promoted c srcVolume srcPath fi volume path hvol t
    t' old hok
  have hapart : Apart (filePath srcVolume srcPath) (metaPath volume path) := apart_cons hvol _ _
  have hread : Lib.FileTree.readFile t' (metaPath volume path) = .ok encoded := by
    rw [readFile_eq_ok, hp.shows _ hapart, if_pos rfl]
  obtain ⟨body,hbody,-⟩ := bind_eq_ok.mp hp.encodes
  obtain ⟨hlen,htail⟩ := hfits raw existing body hp.prior hbody
  refine ⟨raw,existing,encoded,Int32.ofNat (mergeVersions fi volume path existing).length,hp,
    h.catalog raw existing hp.prior,hread,?_⟩
  rw [decodeAll_encodeVersions c _ body encoded hbody hp.encodes hlen htail,
    newestRecordFirst_mergeVersions]

theorem Recorded.cons {t' : Disk} {fi : FileInfo} {n : Int32}
    {existing : List DecodedRecord} {encoded : Bytes} (hcat : Catalog live existing)
    (hid : (stored fi).versionId = fi.versionId)
    (hread : Lib.FileTree.readFile t' (metaPath volume path) = .ok encoded)
    (hdec : decodeAll c encoded = .ok (merged n fi volume path existing)) :
    Recorded c volume path t' (fi::live) :=
  .inr ⟨by simp,encoded,_,hread,hdec,hcat.merge n fi volume path hid⟩

theorem readVersion_latest {t : Disk} {raw : Bytes} {r : DecodedRecord} {rs : List DecodedRecord}
    (hread : Lib.FileTree.readFile t (metaPath volume path) = .ok raw)
    (hdec : decodeAll c raw = .ok rs) (hhead : rs.head? = some r) :
    value (readVersion c volume path none true t) = .ok (fileInfoFromRecord r volume path) := by
  have hvol : look t [volume] = some .dir := by
    apply prefix_shows_dir t (filePath volume path) _ _ (by simp [filePath])
    exact look_above t _ [] metaFilename _ ((readFile_eq_ok t _ raw).mp hread)
  obtain ⟨s,hs,-⟩ := requireVol_of_dir volume t hvol
  rw [readVersion_value c volume path t ⟨_,s,hs⟩, hread]
  obtain ⟨rest,rfl⟩ := List.head?_eq_some_iff.mp hhead
  simp only [versionFrom, pickVersion, decode, hdec]
  rfl

end Key

section Latest

variable (c : MetaCodec) (volume path : String)

/-- A disk after successful promotions of one key, the last one first, each
admitted by what was promoted before and by the disk it found. Between them
anything may happen outside the volume. -/
inductive Promotions (admits : List FileInfo → Disk → FileInfo → Prop) :
    Disk → List FileInfo → Prop
  | start (t : Disk) (h : Lib.FileTree.readFile t (metaPath volume path) = .error .notFound) :
    Promotions admits t []
  | outside {t t' : Disk} {done : List FileInfo} (h : Promotions admits t done)
      (hsame : SameVolume volume t t') : Promotions admits t' done
  | promote {t t' : Disk} {done : List FileInfo} {old : String} (srcVolume srcPath : String)
      (fi : FileInfo) (h : Promotions admits t done) (hvol : srcVolume ≠ volume)
      (hadm : admits done t fi)
      (hok : renameData c srcVolume srcPath fi volume path t = .ok old t') :
    Promotions admits t' (fi::done)

/-- The version id is in canonical form and the time stamps do not go back. -/
structure InOrder (done : List FileInfo) (fi : FileInfo) : Prop where
  canonical : ∃ u, fi.versionId = VersionIds.formatVersionIdBytes u
  later : ∀ g ∈ done, g.modTimeMs ≤ fi.modTimeMs

theorem InOrder.stored_id {done : List FileInfo} {fi : FileInfo} (h : InOrder done fi) :
    (stored fi).versionId = fi.versionId := by
  obtain ⟨u,hu⟩ := h.canonical
  rw [stored, hu, respell_versionId]

variable {c volume path} {t : Disk} {done : List FileInfo}

theorem Promotions.recorded (h : Promotions c volume path
    (fun done t fi => InOrder done fi ∧ Fits c volume path t fi) t done) :
    Recorded c volume path t done := by
  induction h with
  | start t h => exact .inl ⟨rfl,h⟩
  | outside _ hsame ih => exact ih.congr (hsame.readFile path)
  | promote srcVolume srcPath fi _ hvol hadm hok ih =>
    obtain ⟨raw,existing,encoded,n,-,hcat,hread,hdec⟩ := ih.promote hvol hadm.2 hok
    exact .cons hcat hadm.1.stored_id hread hdec

theorem Promotions.sorted (h : Promotions c volume path
    (fun done t fi => InOrder done fi ∧ Fits c volume path t fi) t done) :
    done.Pairwise (fun a b => b.modTimeMs ≤ a.modTimeMs) := by
  induction h with
  | start => exact .nil
  | outside _ _ ih => exact ih
  | promote _ _ _ _ _ hadm _ ih => exact .cons hadm.1.later ih

theorem Promotions.last {fi : FileInfo} (h : Promotions c volume path
    (fun done t fi => InOrder done fi ∧ Fits c volume path t fi) t (fi::done)) :
    InOrder done fi ∧ done.Pairwise (fun a b => b.modTimeMs ≤ a.modTimeMs) ∧
    ∃ existing encoded n, Catalog done existing ∧
      Lib.FileTree.readFile t (metaPath volume path) = .ok encoded ∧
      decodeAll c encoded = .ok (merged n fi volume path existing) := by
  generalize hd : fi::done = all at h
  induction h with
  | start => cases hd
  | outside _ hsame ih =>
    obtain ⟨horder,hsorted,existing,encoded,n,hcat,hread,hdec⟩ := ih hd
    exact ⟨horder,hsorted,existing,encoded,n,hcat,(hsame.readFile path).trans hread,hdec⟩
  | promote srcVolume srcPath fi' h' hvol hadm hok _ =>
    cases hd
    obtain ⟨raw,existing,encoded,n,-,hcat,hread,hdec⟩ := h'.recorded.promote hvol hadm.2 hok
    exact ⟨hadm.1,h'.sorted,existing,encoded,n,hcat,hread,hdec⟩

theorem latest_of_mem (done : List FileInfo) (g : FileInfo) (hg : g ∈ done)
    (h : done.Pairwise (fun a b => b.modTimeMs ≤ a.modTimeMs)) (g' : FileInfo)
    (hl : latest done g.versionId = some g') : g.modTimeMs ≤ g'.modTimeMs := by
  induction done with
  | nil => cases hg
  | cons a done ih =>
    rw [List.pairwise_cons] at h
    by_cases ha : a.versionId = g.versionId
    · rw [latest, List.find?_cons_of_pos (by simpa using ha)] at hl
      obtain rfl := Option.some.inj hl
      rcases List.mem_cons.mp hg with rfl | hg
      · exact UInt64.le_refl _
      · exact h.1 g hg
    · rw [latest, List.find?_cons_of_neg (by simpa using ha)] at hl
      rcases List.mem_cons.mp hg with rfl | hg
      · exact absurd rfl ha
      · exact ih hg h.2 hl

/-- After a promotion the latest version is the one just promoted exactly when
its time stamp is above that of every other version id promoted before. -/
theorem read_latest_iff (fi : FileInfo) (h : Promotions c volume path
    (fun done t fi => InOrder done fi ∧ Fits c volume path t fi) t (fi::done)) :
    (∃ n, value (readVersion c volume path none true t) =
      .ok (fileInfoFromRecord (recordOf n (stored fi)) volume path)) ↔
    ∀ g ∈ done, g.versionId ≠ fi.versionId → g.modTimeMs < fi.modTimeMs := by
  obtain ⟨horder,hsorted,existing,encoded,n,hcat,hread,hdec⟩ := h.last
  have hid := horder.stored_id
  have hmem := mem_merged n fi volume path hcat
  have hstrict : (∀ r ∈ existing, r.versionId ≠ fi.versionId → r.modTimeMs < fi.modTimeMs) ↔
      ∀ g ∈ done, g.versionId ≠ fi.versionId → g.modTimeMs < fi.modTimeMs := by
    constructor
    · intro hr g hg hne
      obtain ⟨r,hmemr,hrid⟩ := hcat.present g hg
      obtain ⟨g',m,hl,hrec⟩ := hcat.carries r hmemr
      have hlt := hr r hmemr (hrid ▸ hne)
      rw [hrec] at hlt
      exact UInt64.lt_of_le_of_lt (latest_of_mem done g hg hsorted g' (hrid ▸ hl)) hlt
    · intro hg r hmemr hne
      obtain ⟨g',m,hl,hrec⟩ := hcat.carries r hmemr
      have hlt := hg g' (List.mem_of_find?_eq_some hl) (by
        have : g'.versionId = r.versionId := by simpa using List.find?_some hl
        rwa [this])
      rwa [hrec]
  rw [← hstrict, ← merged_head_iff n fi volume path hcat hid]
  constructor
  · rintro ⟨m,hvalue⟩
    obtain ⟨r,hhead⟩ : ∃ r, (merged n fi volume path existing).head? = some r := by
      rw [← Option.isSome_iff_exists, List.isSome_head?]
      exact List.ne_nil_of_mem ((hmem _).mpr (.inr rfl))
    rw [readVersion_latest hread hdec hhead] at hvalue
    rcases (hmem r).mp (List.mem_of_head? hhead) with ⟨s,-,hne,rfl⟩ | rfl
    · have hsame : s.versionId = (stored fi).versionId :=
        congrArg FileInfo.versionId (Except.ok.inj hvalue)
      exact absurd (hsame.trans hid) hne
    · exact hhead
  · intro hhead
    exact ⟨n,readVersion_latest hread hdec hhead⟩

end Latest

def promoteK (c : MetaCodec) (fi : FileInfo) (t : Disk) : EStateM.Result IoError Disk String :=
  renameData c stagingVol "s" fi "b" "k" t

def afterFirst : Disk := left (promoteK putCodec firstPut emptyBucket)

theorem fits_of_eq (c : MetaCodec) (volume path : String) (t : Disk) (fi : FileInfo)
    (existing : List DecodedRecord)
    (hprior : (priorVersions c volume path t).toOption.map Prod.snd = some existing)
    (hbody : ((encodeBody c (mergeVersions fi volume path existing)).toOption.getD []).length < 2^32)
    (htail : (inlineTail (mergeVersions fi volume path existing)).length < 2^64) :
    Fits c volume path t fi := by
  intro raw rs body hp hb
  rw [hp] at hprior
  obtain rfl : rs = existing := Option.some.inj hprior
  rw [hb] at hbody
  exact ⟨hbody,htail⟩

theorem canonical_of_eq (s : String)
    (h : (parsed (VersionIds.parseUuidBytes s "version_id")).toOption.map
      VersionIds.formatVersionIdBytes = some s) :
    ∃ u, s = VersionIds.formatVersionIdBytes u := by
  obtain ⟨u,-,hu⟩ := Option.map_eq_some_iff.mp h
  exact ⟨u,hu.symm⟩

theorem promotions_two : Promotions putCodec "b" "k"
    (fun done t fi => InOrder done fi ∧ Fits putCodec "b" "k" t fi)
    (left (promoteK putCodec secondPut afterFirst)) [secondPut,firstPut] := by
  -- each promotion is evaluated once for all that is needed of it
  obtain ⟨hprior1,hbody1,ok1⟩ :
      (priorVersions putCodec "b" "k" emptyBucket).toOption.map Prod.snd = some [] ∧
      ((encodeBody putCodec (mergeVersions firstPut "b" "k" [])).toOption.getD []).length < 2^32 ∧
      value (promoteK putCodec firstPut emptyBucket) = .ok "" := by decide +kernel
  obtain ⟨hprior2,hbody2,ok2⟩ :
      (priorVersions putCodec "b" "k" afterFirst).toOption.map Prod.snd =
        some [recordOf 1 firstPut] ∧
      ((encodeBody putCodec (mergeVersions secondPut "b" "k" [recordOf 1 firstPut])).toOption.getD
        []).length < 2^32 ∧
      value (promoteK putCodec secondPut afterFirst) = .ok "" := by decide +kernel
  have hfirst := fits_of_eq putCodec "b" "k" _ _ _ hprior1 hbody1 (by decide +kernel)
  have hsecond := fits_of_eq putCodec "b" "k" _ _ _ hprior2 hbody2 (by decide +kernel)
  have h0 : Promotions putCodec "b" "k"
      (fun done t fi => InOrder done fi ∧ Fits putCodec "b" "k" t fi) emptyBucket [] := .start _ rfl
  have h1 := h0.promote stagingVol "s" firstPut (by decide)
    ⟨⟨canonical_of_eq _ (by decide +kernel),by simp⟩,hfirst⟩ (eq_ok_left ok1)
  exact h1.promote stagingVol "s" secondPut (by decide)
    ⟨⟨canonical_of_eq _ (by decide +kernel),by decide +kernel⟩,hsecond⟩ (eq_ok_left ok2)

theorem secondPut_read_latest_iff :
    (∃ n, value (readVersion putCodec "b" "k" none true
        (left (promoteK putCodec secondPut afterFirst))) =
      .ok (fileInfoFromRecord (recordOf n (stored secondPut)) "b" "k")) ↔
    ∀ g ∈ [firstPut], g.versionId ≠ secondPut.versionId → g.modTimeMs < secondPut.modTimeMs :=
  read_latest_iff secondPut promotions_two

/-- A second version promoted at the time stamp of the first. -/
def tiedPut : FileInfo :=
  inlinePut "22222222-2222-4222-8222-222222222222" "92eb5ffee6ae2fec3ad71c777531578f" 1 98

def tiedTable : List (List VersionRecord) :=
  [recordsOf [firstPut],recordsOf [firstPut,tiedPut]]

theorem tiedTable_injective :
    ∀ a ∈ tiedTable, ∀ b ∈ tiedTable, onDiskMeta a = onDiskMeta b → a = b := by
  decide +kernel

def tiedCodec : MetaCodec := tableCodec tiedTable Lib.Xxh64.xxh64 tiedTable_injective

/-- Both promotions succeed and the read of the latest version still returns
the first. -/
theorem tiedPut_not_latest :
    firstPut.modTimeMs ≤ tiedPut.modTimeMs ∧
    value (promoteK tiedCodec firstPut emptyBucket) = .ok "" ∧
    value (promoteK tiedCodec tiedPut (left (promoteK tiedCodec firstPut emptyBucket))) = .ok "" ∧
    value (readVersion tiedCodec "b" "k" none true
      (left (promoteK tiedCodec tiedPut (left (promoteK tiedCodec firstPut emptyBucket))))) =
      .ok { firstPut with numVersions := 2, fresh := false } := by
  decide +kernel

end Openlake.VersionHistory
