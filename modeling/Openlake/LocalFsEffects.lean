import Openlake.LocalFs
import Openlake.XlMetaErrors
import Openlake.XlMetaRoundTrip

/-!
# What a backend call leaves on the disk

Each call that succeeds is described by what every path shows afterwards. A
promotion touches the object's metadata file, its backup, the data directory
it moves in, the directories above the object, and the staging area. Its undo
puts the backup in the place of the metadata and removes the new data directory;
when there is no backup it removes the whole object directory.
-/

set_option autoImplicit false

namespace Openlake.LocalFs
open Openlake.Types XlMeta XlMetaErrors XlMetaRoundTrip Lib.FileTree Lib.Effects Lib.Outcomes

/-- The directories of `p` were created where they were missing. -/
def Grown (p : Path) (t t' : Disk) : Prop :=
  ∀ q, look t' q = (if q <+: p then some .dir else look t q) ∧
    (q <+: p → look t q = none ∨ look t q = some .dir)

theorem createDirs_ok (p : Path) (t t' : Disk) (u : Unit) (h : createDirs p t = .ok u t') :
    Grown p t t' := by
  rw [createDirs, change_eq_ok, mapError_eq_ok] at h
  exact look_createDirAll t t' p h

theorem overwrite_ok (bytes : Bytes) (p : Path) (t t' : Disk) (u : Unit)
    (h : overwrite bytes p t = .ok u t') (q : Path) :
    look t' q = if q = p then some (.file bytes) else look t q := by
  rw [overwrite, change_eq_ok, mapError_eq_ok] at h
  exact look_writeFile bytes t t' p h q

theorem renameNode_ok (src dst : Path) (t t' : Disk) (u : Unit)
    (h : renameNode src dst t = .ok u t') (q : Path) :
    look t' q = if dst <+: q then look t (src ++ q.drop dst.length)
      else if src <+: q ∧ src ≠ dst then none else look t q := by
  rw [renameNode, change_eq_ok, mapError_eq_ok] at h
  exact look_rename t t' src dst h q

theorem checkVol_ok (volume : String) (t : Disk) (h : checkVol volume t = .ok ()) :
    look t [volume] = some .dir := by
  rw [checkVol, stat] at h
  rw [look]
  cases hg : get t [volume] with
  | none => simp [hg] at h
  | some c =>
    cases c with
    | file b => simp [hg] at h
    | dir es => rfl

theorem requireVol_ok (volume : String) (t t' : Disk) (u : Unit)
    (h : requireVol volume t = .ok u t') : Grown [volume] t t' := by
  rw [requireVol] at h
  split_ifs at h with hsys
  · exact createDirs_ok _ t t' u h
  · rw [probe_eq_ok] at h
    obtain ⟨hdir,rfl⟩ := h
    have hvol := checkVol_ok volume t hdir
    intro q
    by_cases hq : q <+: [volume]
    · have := prefix_shows_dir t _ q hvol hq
      simp [hq, this]
    · simp [hq]

theorem isDir_iff (t : Disk) (p : Path) : isDir t p = true ↔ look t p = some .dir := by
  rw [isDir, stat, look]
  cases get t p with
  | none => simp
  | some c => cases c <;> simp [kind]

theorem Grown.showsFile {p : Path} {t t' : Disk} (h : Grown p t t') (q : Path) :
    ShowsFile t' q ↔ ShowsFile t q := by
  obtain ⟨hq,hsame⟩ := h q
  rw [ShowsFile, ShowsFile, hq]
  by_cases hp : q <+: p
  · rcases hsame hp with hn | hd
    · simp [hp, hn]
    · simp [hp, hd]
  · simp [hp]

theorem Grown.readFile {p q : Path} {t t' : Disk} (h : Grown p t t') (hq : ¬q <+: p) :
    Lib.FileTree.readFile t' q = Lib.FileTree.readFile t q :=
  readFile_congr t t' q (by rw [(h q).1, if_neg hq]) fun r _ => h.showsFile r

theorem parse_file_names (u : VersionIds.Uuid) :
    parsed (VersionIds.parseUuidBytes metaFilename "data_dir") ≠ .ok u ∧
    parsed (VersionIds.parseUuidBytes metaBackupFilename "data_dir") ≠ .ok u :=
  ⟨nofun,nofun⟩

variable (c : MetaCodec)

theorem dataDir_ne_file_names (versions : List FileInfo) (bytes : Bytes)
    (h : encodeVersions c versions = .ok bytes) (fi : FileInfo) (hfi : fi ∈ versions) :
    fi.dataDir ≠ metaFilename ∧ fi.dataDir ≠ metaBackupFilename := by
  rw [encodeVersions] at h
  obtain ⟨body,hbody,-⟩ := bind_eq_ok.mp h
  obtain ⟨-,-,records,hrec,-⟩ := encodeBody_eq_ok c versions body hbody
  obtain ⟨v,-,pos,hp⟩ := forall₂_mem_right (encodeRecords_placed versions [] [] records hrec).flip
    fi hfi
  have hdir := hp.encodes.dataDir
  exact ⟨fun he => (parse_file_names _).1 (he ▸ hdir),fun he => (parse_file_names _).2 (he ▸ hdir)⟩

theorem moveDataDir_ok (staged object : Path) (dataDir : String) (hapart : Apart staged object)
    (t t' : Disk) (u : Unit) (h : moveDataDir staged object dataDir t = .ok u t') (q : Path)
    (hq : ¬staged ++ [dataDir] <+: q) :
    look t' q =
      (if object ++ [dataDir] <+: q ∧ dataDir ≠ "" ∧ isDir t (staged ++ [dataDir]) then
        look t (staged ++ dataDir::q.drop (object ++ [dataDir]).length)
      else if q <+: object ∧ dataDir ≠ "" ∧ isDir t (staged ++ [dataDir]) then some .dir
      else look t q) ∧
    (q <+: object → ShowsFile t q → ShowsFile t' q) := by
  rw [moveDataDir] at h
  by_cases hmoved : dataDir ≠ "" ∧ isDir t (staged ++ [dataDir])
  · rw [if_pos hmoved] at h
    obtain ⟨_,s,hs,hren⟩ := (run_bind_eq_ok _ _ _ _ _).mp h
    have hgrown := createDirs_ok object t s _ hs
    have hlook := renameNode_ok _ _ s t' u hren q
    simp only [hq, false_and, if_false] at hlook
    constructor
    · have hfar := (hapart.append_left (dataDir::q.drop (object ++ [dataDir]).length)).1
      simp only [hmoved, ne_eq, not_false_eq_true, and_true]
      rw [hlook, (hgrown q).1, List.append_assoc, List.singleton_append,
        (hgrown (staged ++ dataDir::q.drop (object ++ [dataDir]).length)).1, if_neg hfar]
    · intro hpre hfile
      have hno : ¬object ++ [dataDir] <+: q := fun hp => by
        have := (hp.trans hpre).length_le
        simp at this
      rw [if_neg hno] at hlook
      rw [ShowsFile, hlook]
      exact (hgrown.showsFile q).mpr hfile
  · rw [if_neg hmoved] at h
    obtain ⟨-,rfl⟩ := EStateM.Result.ok.inj h
    exact ⟨by simp [hmoved],fun _ hf => hf⟩

theorem writeBackup_ok (object : Path) (held : Bool) (raw : Option Bytes) (t t' : Disk) (u : Unit)
    (h : writeBackup object held raw t = .ok u t') (q : Path) :
    look t' q =
      (if q = object ++ [metaBackupFilename] ∧ held ∧ raw ≠ none then raw.map .file
      else if q <+: object ∧ held ∧ raw ≠ none then some .dir else look t q) ∧
    (q <+: object → ShowsFile t q → ShowsFile t' q) := by
  cases raw with
  | none =>
    obtain ⟨-,rfl⟩ := (pure_eq_ok _ _ _ _).mp h
    exact ⟨by simp,fun _ hf => hf⟩
  | some bytes =>
    rw [writeBackup] at h
    cases held with
    | false =>
      obtain ⟨-,rfl⟩ := (pure_eq_ok _ _ _ _).mp h
      exact ⟨by simp,fun _ hf => hf⟩
    | true =>
      obtain ⟨_,s,hs,hw⟩ := (run_bind_eq_ok _ _ _ _ _).mp h
      have hgrown := createDirs_ok object t s _ hs
      have hlook := overwrite_ok _ _ s t' u hw q
      constructor
      · rw [hlook, (hgrown q).1]
        simp
      · intro hpre hfile
        have hne : q ≠ object ++ [metaBackupFilename] := by
          rintro rfl
          have := hpre.length_le
          simp at this
        rw [if_neg hne] at hlook
        rw [ShowsFile, hlook]
        exact (hgrown.showsFile q).mpr hfile

theorem ignore_removeDir_ok (p : Path) (t t' : Disk) (u : Unit)
    (h : ignore (change (fun t => (removeDir t p).mapError osError)) t = .ok u t') (q : Path)
    (hq : q ≠ p) : look t' q = look t q := by
  rw [ignore_eq_ok] at h
  subst h
  rw [change]
  cases hr : removeDir t p with
  | error e => rfl
  | ok s =>
    rw [show left _ = s from rfl, (look_removeDir t s p hr).2.2 q, if_neg hq]

variable (volume path : String)

theorem priorVersions_congr (t t' : Disk)
    (h : Lib.FileTree.readFile t' (metaPath volume path) =
      Lib.FileTree.readFile t (metaPath volume path)) :
    priorVersions c volume path t' = priorVersions c volume path t := by
  rw [priorVersions, priorVersions, h]

theorem priorVersions_ok (t : Disk) (raw : Option Bytes)
    (existing : List DecodedRecord) (h : priorVersions c volume path t = .ok (raw,existing)) :
    (raw = none ∧ existing = [] ∧
      Lib.FileTree.readFile t (metaPath volume path) = .error .notFound) ∨
    ∃ bytes, raw = some bytes ∧ decodeAll c bytes = .ok existing ∧
      Lib.FileTree.readFile t (metaPath volume path) = .ok bytes := by
  rw [priorVersions] at h
  cases hr : Lib.FileTree.readFile t (metaPath volume path) with
  | ok bytes =>
    simp only [hr] at h
    obtain ⟨all,hall,hret⟩ := bind_eq_ok.mp h
    rw [mapError_eq_ok] at hall
    cases hret
    exact .inr ⟨bytes,rfl,hall,rfl⟩
  | error e =>
    rw [hr] at h
    cases e <;> cases h
    exact .inl ⟨rfl,rfl,rfl⟩

theorem priorVersions_below (t : Disk) (raw : Option Bytes)
    (existing : List DecodedRecord) (h : priorVersions c volume path t = .ok (raw,existing))
    (x : String) (r : Path) : look t (metaPath volume path ++ x::r) = none := by
  rcases priorVersions_ok c volume path t raw existing h with ⟨-,-,hr⟩ | ⟨bytes,-,-,hr⟩
  · exact look_below_none t _ (look_of_notFound t _ hr) _
  · exact look_below_file t _ bytes ((readFile_eq_ok t _ bytes).mp hr) x r

theorem readVersion_value (t : Disk)
    (hvol : ∃ u s, requireVol volume t = .ok u s) (id : Option String) (data : Bool) :
    value (readVersion c volume path id data t) =
      match Lib.FileTree.readFile t (metaPath volume path) with
      | .ok bytes => versionFrom c volume path bytes id data
      | .error e => .error (fileError volume path e) := by
  obtain ⟨u,s,hs⟩ := hvol
  have hread : Lib.FileTree.readFile s (metaPath volume path) =
      Lib.FileTree.readFile t (metaPath volume path) := by
    apply (requireVol_ok volume t s u hs).readFile
    intro hp
    simpa [metaPath, filePath] using hp.length_le
  rw [readVersion, bind_of_ok hs]
  cases hr : Lib.FileTree.readFile t (metaPath volume path) with
  | error e =>
    rw [hr] at hread
    rw [bind_of_error (e := fileError volume path e) (t := s) (by rw [probe, hread]; rfl)]
    rfl
  | ok bytes =>
    rw [hr] at hread
    rw [bind_of_ok (a := bytes) (t := s) (by rw [probe, hread]; rfl)]
    show value (lift _ s) = versionFrom c volume path bytes id data
    cases versionFrom c volume path bytes id data <;> rfl

theorem readVersion_ok (t : Disk) (id : Option String)
    (data : Bool) (fi : FileInfo) (h : value (readVersion c volume path id data t) = .ok fi) :
    ∃ bytes, Lib.FileTree.readFile t (metaPath volume path) = .ok bytes ∧
      versionFrom c volume path bytes id data = .ok fi := by
  have hvol : ∃ u s, requireVol volume t = .ok u s := by
    cases hv : requireVol volume t with
    | ok u s => exact ⟨u,s,rfl⟩
    | error e s =>
      rw [readVersion, bind_of_error hv] at h
      cases h
  rw [readVersion_value c volume path t hvol] at h
  cases hr : Lib.FileTree.readFile t (metaPath volume path) with
  | error e => rw [hr] at h; cases h
  | ok bytes => exact ⟨bytes,rfl,by rwa [hr] at h⟩

theorem found_versionFrom (bytes : Bytes)
    (id : Option String) (data : Bool) : Found (versionFrom c volume path bytes id data) := by
  refine found_bind ?_ fun _ => found_ok _
  cases id with
  | none =>
    intro v p h
    rw [pickVersion] at h
    cases hd : decode c bytes with
    | ok r => rw [hd] at h; cases h
    | error e =>
      rw [hd] at h
      cases e <;> cases h
      exact found_decode c bytes _ _ hd
  | some id =>
    refine found_bind (found_findVersion c bytes id) fun r => ?_
    cases r <;> exact nofun

theorem pickVersion_mem (bytes : Bytes)
    (id : Option String) (r : DecodedRecord) (h : pickVersion c volume path bytes id = .ok r) :
    ∃ rs, decodeAll c bytes = .ok rs ∧ r ∈ rs := by
  cases id with
  | none =>
    rw [pickVersion, mapError_eq_ok, decode, bind_eq_ok] at h
    obtain ⟨rs,hrs,h⟩ := h
    cases rs with
    | nil => cases h
    | cons r' rs =>
      cases h
      exact ⟨_,hrs,List.mem_cons_self⟩
  | some id =>
    simp only [pickVersion, findVersion, bind_eq_ok] at h
    obtain ⟨found,⟨rs,hrs,hf⟩,h⟩ := h
    obtain rfl := Except.ok.inj hf
    cases hfind : rs.find? (fun r => r.versionId = id) with
    | none => rw [hfind] at h; cases h
    | some r' =>
      rw [hfind] at h
      cases h
      exact ⟨rs,hrs,List.mem_of_find?_eq_some hfind⟩

theorem versionFrom_erasure (bytes : Bytes)
    (id : Option String) (data : Bool) (fi : FileInfo)
    (h : versionFrom c volume path bytes id data = .ok fi) : ErasureOk fi.erasure := by
  rw [versionFrom, bind_eq_ok] at h
  obtain ⟨r,hr,h⟩ := h
  obtain ⟨rs,hrs,hmem⟩ := pickVersion_mem c volume path bytes id r hr
  have hok := decodeAll_erasure c bytes rs hrs r hmem
  cases data <;> cases h <;> exact hok

section Promotion

variable (c : MetaCodec) (srcVolume srcPath : String) (fi : FileInfo) (dstVolume dstPath : String)

/-- What a promotion that succeeds found and what the paths outside its staging
directory show afterwards. -/
structure Promoted (t t' : Disk) (old : String) (raw : Option Bytes)
    (existing : List DecodedRecord) (encoded : Bytes) : Prop where
  volume : ∃ u s, requireVol dstVolume t = .ok u s
  prior : priorVersions c dstVolume dstPath t = .ok (raw,existing)
  encodes : encodeVersions c (mergeVersions fi dstVolume dstPath existing) = .ok encoded
  old_eq : old = (oldDataDir fi existing).getD ""
  above : ∀ q, q <+: filePath dstVolume dstPath → look t q = none ∨ look t q = some .dir
  shows : ∀ q, Apart (filePath srcVolume srcPath) q → look t' q =
    if q = metaPath dstVolume dstPath then some (.file encoded)
    else if q = filePath dstVolume dstPath ++ [metaBackupFilename] ∧
      existing.any (fun r => r.versionId = fi.versionId) then raw.map .file
    else if filePath dstVolume dstPath ++ [fi.dataDir] <+: q ∧ fi.dataDir ≠ "" ∧
        isDir t (filePath srcVolume srcPath ++ [fi.dataDir]) then
      look t (filePath srcVolume srcPath ++
        fi.dataDir::q.drop (filePath dstVolume dstPath ++ [fi.dataDir]).length)
    else if q <+: filePath dstVolume dstPath then some .dir
    else look t q

/-- The directories of the target volume and of the staging area are there and
the new metadata is staged. -/
structure Staged (t s : Disk) (encoded : Bytes) : Prop where
  file : look s (filePath srcVolume srcPath ++ [metaFilename]) = some (.file encoded)
  below : ∀ x r, x ≠ metaFilename →
    look s (filePath srcVolume srcPath ++ x::r) = look t (filePath srcVolume srcPath ++ x::r)
  outside : ∀ q, Apart (filePath srcVolume srcPath) q →
    look s q = if q <+: [dstVolume] then some .dir else look t q
  file_above : ∀ q, Apart (filePath srcVolume srcPath) q → ShowsFile t q → ShowsFile s q

theorem staged_ok (hvol : srcVolume ≠ dstVolume) (t s1 s2 s3 : Disk) (encoded : Bytes)
    (g1 : Grown [dstVolume] t s1) (g2 : Grown (filePath srcVolume srcPath) s1 s2)
    (w3 : ∀ q, look s3 q = if q = filePath srcVolume srcPath ++ [metaFilename]
      then some (.file encoded) else look s2 q) :
    Staged srcVolume srcPath dstVolume t s3 encoded := by
  set S := filePath srcVolume srcPath with hS
  have hapart : Apart S [dstVolume] := apart_cons hvol _ _
  have hout : ∀ q, Apart S q → look s3 q = look s2 q := by
    intro q hq
    have hne : q ≠ S ++ [metaFilename] := by
      rintro rfl
      exact hq.1 (List.prefix_append _ _)
    rw [w3, if_neg hne]
  constructor
  · rw [w3, if_pos rfl]
  · intro x r hx
    have hne : S ++ x::r ≠ S ++ [metaFilename] := by simpa using fun he => absurd he hx
    have hlong : ¬S ++ x::r <+: S := fun hp => by simpa using hp.length_le
    rw [w3, if_neg hne, (g2 _).1, if_neg hlong, (g1 _).1, if_neg (hapart.append_left _).1]
  · intro q hq
    rw [hout q hq, (g2 q).1, if_neg hq.2, (g1 q).1]
  · intro q hq hfile
    rw [ShowsFile, hout q hq]
    exact (g2.showsFile q).mpr ((g1.showsFile q).mpr hfile)

theorem renameData_promoted (hvol : srcVolume ≠ dstVolume) (t t' : Disk) (old : String)
    (h : renameData c srcVolume srcPath fi dstVolume dstPath t = .ok old t') :
    ∃ raw existing encoded,
      Promoted c srcVolume srcPath fi dstVolume dstPath t t' old raw existing encoded := by
  simp only [renameData, run_bind_eq_ok, lift_eq_ok, probe_eq_ok, pure_eq_ok] at h
  obtain ⟨_,_,⟨-,rfl⟩,_,_,h1,⟨raw,existing⟩,_,⟨hprior,rfl⟩,encoded,_,⟨henc,rfl⟩,_,s2,h2,_,s3,h3,
    _,s4,h4,_,s5,h5,_,s6,h6,_,s7,h7,_,s8,h8,hold,rfl⟩ := h
  have hnames := dataDir_ne_file_names c _ encoded henc fi
    ((List.mem_insertionSort _).mpr (by simp))
  have g1 := requireVol_ok dstVolume t _ _ h1
  have hs3 := staged_ok srcVolume srcPath dstVolume hvol t _ s2 s3 encoded g1
    (createDirs_ok _ _ s2 _ h2) (overwrite_ok encoded _ s2 s3 _ h3)
  have hprior' : priorVersions c dstVolume dstPath t = .ok (raw,existing) := by
    rw [← hprior]
    apply (priorVersions_congr c dstVolume dstPath t _ (g1.readFile _)).symm
    intro hp
    simpa [metaPath, filePath] using hp.length_le
  set S := filePath srcVolume srcPath with hS
  set O := filePath dstVolume dstPath with hO
  have hapart : Apart S O := apart_cons hvol _ _
  have m4 := moveDataDir_ok S O fi.dataDir hapart s3 s4 _ h4
  have b5 := writeBackup_ok O _ raw s4 s5 _ h5
  have g6 := createDirs_ok O s5 s6 _ h6
  have r7 := renameNode_ok _ _ s6 s7 _ h7
  have d8 := ignore_removeDir_ok S s7 s8 _ h8
  -- below the staged metadata nothing moves before the last rename
  have hstay : ∀ r, look s6 (S ++ metaFilename::r) = look s3 (S ++ metaFilename::r) := by
    intro r
    have hq := hapart.append_left (metaFilename::r)
    have hdd : ¬S ++ [fi.dataDir] <+: S ++ metaFilename::r := fun hp =>
      hnames.1 (List.cons_prefix_cons.mp ((List.prefix_append_right_inj S).mp hp)).1
    have hbkp : S ++ metaFilename::r ≠ O ++ [metaBackupFilename] := fun he =>
      (hapart.append (metaFilename::r) [metaBackupFilename]).1 (he ▸ List.prefix_rfl)
    have hnew : ¬O ++ [fi.dataDir] <+: S ++ metaFilename::r :=
      (hapart.append (metaFilename::r) [fi.dataDir]).2
    rw [(g6 _).1, if_neg hq.1, (b5 _).1, if_neg (fun h => hbkp h.1), if_neg (fun h => hq.1 h.1),
      (m4 _ hdd).1, if_neg (fun h => hnew h.1), if_neg (fun h => hq.1 h.1)]
  have hmoved : isDir s3 (S ++ [fi.dataDir]) = isDir t (S ++ [fi.dataDir]) := by
    rw [Bool.eq_iff_iff, isDir_iff, isDir_iff, hs3.below _ [] hnames.1]
  refine ⟨raw,existing,encoded,⟨_,_,h1⟩,hprior',henc,hold.symm,fun q hq => ?_,fun q hq => ?_⟩
  · have hno : ¬ShowsFile t q := by
      intro hfile
      cases q with
      | nil =>
        obtain ⟨b,hb⟩ := hfile
        rcases (g1 []).2 List.nil_prefix with h | h <;> simp [h] at hb
      | cons x q =>
        have hx : x = dstVolume := (List.cons_prefix_cons.mp hq).1
        have hSq : Apart S (x::q) := apart_cons (hx ▸ hvol) _ _
        have hdd : ¬S ++ [fi.dataDir] <+: x::q := (hSq.append_left _).1
        obtain ⟨b,hb⟩ := (b5 _).2 hq ((m4 _ hdd).2 hq (hs3.file_above _ hSq hfile))
        rcases (g6 _).2 hq with h | h <;> simp [h] at hb
    cases hk : look t q with
    | none => exact .inl rfl
    | some k =>
      cases k with
      | file b => exact absurd ⟨b,hk⟩ hno
      | dir => exact .inr rfl
  · simp only [metaPath, ← hO, ← hS] at hq ⊢
    have hne : q ≠ S := fun he => hq.1 (he ▸ List.prefix_rfl)
    have hdd : ¬S ++ [fi.dataDir] <+: q := (hq.append_left _).1
    rw [d8 q hne, r7 q]
    by_cases hm : O ++ [metaFilename] <+: q
    · obtain ⟨r,rfl⟩ := hm
      rw [if_pos (List.prefix_append _ _), List.drop_left, List.append_assoc,
        List.singleton_append, hstay]
      cases r with
      | nil =>
        rw [List.append_nil, if_pos rfl]
        exact hs3.file
      | cons x r =>
        have hlong : O ++ [metaFilename] ++ x::r ≠ O ++ [metaFilename] := by simp
        have hbkp : O ++ [metaFilename] ++ x::r ≠ O ++ [metaBackupFilename] := by simp
        have hdir : ¬O ++ [fi.dataDir] <+: O ++ [metaFilename] ++ x::r := by
          rw [List.append_assoc, List.prefix_append_right_inj]
          simpa using hnames.1
        have hup : ¬O ++ [metaFilename] ++ x::r <+: O := fun hp => by simpa using hp.length_le
        have hbelow := priorVersions_below c dstVolume dstPath t raw existing hprior' x r
        rw [if_neg hlong, if_neg (fun h => hbkp h.1), if_neg (fun h => hdir h.1), if_neg hup]
        rw [metaPath, ← hO] at hbelow
        rw [hbelow, List.append_cons]
        exact look_below_file s3 _ encoded hs3.file x r
    · have hsrc : ¬S ++ [metaFilename] <+: q := (hq.append_left _).1
      have hmeta : q ≠ O ++ [metaFilename] := fun he => hm (he ▸ List.prefix_rfl)
      rw [if_neg hm, if_neg (fun h => hsrc h.1), if_neg hmeta, (g6 q).1]
      by_cases hup : q <+: O
      · have hbkp : q ≠ O ++ [metaBackupFilename] := by
          rintro rfl
          simpa using hup.length_le
        have hdir : ¬O ++ [fi.dataDir] <+: q := fun hp => by
          simpa using (hp.trans hup).length_le
        simp only [hup, hbkp, hdir, false_and, if_true, if_false]
      · have hvolq : ¬q <+: [dstVolume] := fun hp => hup (hp.trans (by simp [hO, filePath]))
        have hheld : (existing.any (fun r => decide (r.versionId = fi.versionId)) = true ∧
            raw ≠ none) ↔ existing.any (fun r => decide (r.versionId = fi.versionId)) = true := by
          refine and_iff_left_of_imp fun hany => ?_
          rcases priorVersions_ok c dstVolume dstPath t raw existing hprior' with
            ⟨-,rfl,-⟩ | ⟨bytes,rfl,-⟩
          · simp at hany
          · simp
        rw [(b5 q).1, (m4 q hdd).1, hs3.outside q hq, if_neg hvolq, hmoved,
          hs3.below _ _ hnames.1]
        simp only [hup, hheld, false_and, if_false, ← hS]

end Promotion

theorem moveToTrash_look (target : Path) (hne : target ≠ []) (t : Disk) (q : Path) :
    look (left (moveToTrash target t)) q = if target <+: q then none else look t q := by
  rw [moveToTrash, change, trash, stat]
  cases hg : get t target with
  | none =>
    have hnone : look t target = none := by rw [look, hg]; rfl
    by_cases hq : target <+: q
    · obtain ⟨r,rfl⟩ := hq
      simp [Except.mapError, left, look_below_none t target hnone]
    · simp [Except.mapError, left, hq]
  | some c => simp [Except.mapError, hne, left, look_prune]

theorem ignore_left {α : Type} (x : Fs α) (t : Disk) : left (ignore x t) = left (x t) := rfl

theorem requireVol_left (volume : String) (t : Disk) :
    (∃ u s, requireVol volume t = .ok u s ∧ Grown [volume] t s) ∨
      ∃ e, requireVol volume t = .error e t := by
  cases h : requireVol volume t with
  | ok u s => exact .inl ⟨u,s,rfl,requireVol_ok volume t s u h⟩
  | error e s =>
    refine .inr ⟨e,?_⟩
    rw [requireVol, createDirs] at h
    split_ifs at h
    · rw [change] at h
      split at h
      · cases h
      · cases h
        rfl
    · rw [probe] at h
      cases hc : checkVol volume t with
      | ok u => rw [hc] at h; cases h
      | error e' => rw [hc] at h; cases h; rfl

theorem removeNode_look (p : Path) (hne : p ≠ []) (node : Node Bytes) (recursive : Bool) (t : Disk)
    (q : Path) (hq : ¬p <+: q) : look (left (removeNode recursive p node t)) q = look t q := by
  have hqp : q ≠ p := fun he => hq (he ▸ List.prefix_rfl)
  cases node with
  | file b =>
    rw [removeNode, change]
    cases hr : removeFile t p with
    | error e => rfl
    | ok s =>
      rw [show left _ = s from rfl, (look_removeFile t s p hr).2 q, if_neg hqp]
  | dir es =>
    rw [removeNode]
    split_ifs
    · rw [moveToTrash_look p hne, if_neg hq]
    · rw [change]
      cases hr : removeDir t p with
      | error e => rfl
      | ok s =>
        rw [show left _ = s from rfl, (look_removeDir t s p hr).2.2 q, if_neg hqp]

variable (volume path : String)

theorem filePath_ne_nil : filePath volume path ≠ [] := by simp [filePath]

/-- Whatever its outcome, a delete may create the volume and then changes
nothing outside its path. -/
theorem delete_left (recursive : Bool) (t : Disk) :
    left (delete volume path recursive t) = t ∨
      ∃ s, Grown [volume] t s ∧ ∀ q, ¬filePath volume path <+: q →
        look (left (delete volume path recursive t)) q = look s q := by
  rcases requireVol_left volume t with ⟨u,s,hs,hgrown⟩ | ⟨e,he⟩
  · refine .inr ⟨s,hgrown,fun q hq => ?_⟩
    rw [delete, bind_of_ok hs]
    cases hst : stat s (filePath volume path) with
    | error e =>
      have : probe (fun t => (stat t (filePath volume path)).mapError (fileError volume path)) s =
          .error (fileError volume path e) s := by
        rw [probe, hst]
        rfl
      rw [bind_of_error this]
      rfl
    | ok node =>
      have : probe (fun t => (stat t (filePath volume path)).mapError (fileError volume path)) s =
          .ok node s := by
        rw [probe, hst]
        rfl
      rw [bind_of_ok this, removeNode_look _ (filePath_ne_nil volume path) node recursive s q hq]
  · rw [delete, bind_of_error he]
    exact .inl rfl

theorem delete_frame (recursive : Bool) (t : Disk) (q : Path)
    (hq : ¬filePath volume path <+: q) (hvol : ¬q <+: [volume]) :
    look (left (delete volume path recursive t)) q = look t q := by
  rcases delete_left volume path recursive t with hsame | ⟨s,hgrown,hs⟩
  · rw [hsame]
  · rw [hs q hq, (hgrown q).1, if_neg hvol]

theorem delete_readFile (recursive : Bool) (t : Disk) (p : Path)
    (hp : ¬filePath volume path <+: p) (hvol : ¬p <+: [volume]) :
    Lib.FileTree.readFile (left (delete volume path recursive t)) p =
      Lib.FileTree.readFile t p := by
  rcases delete_left volume path recursive t with hsame | ⟨s,hgrown,hs⟩
  · rw [hsame]
  · rw [← hgrown.readFile hvol]
    have hq : ∀ q, q <+: p → look (left (delete volume path recursive t)) q = look s q :=
      fun q hq => hs q fun hpre => hp (hpre.trans hq)
    apply readFile_congr _ _ _ (hq p List.prefix_rfl)
    intro q hqp
    rw [ShowsFile, ShowsFile, hq q hqp]

theorem requireVol_of_dir (volume : String) (t : Disk) (h : look t [volume] = some .dir) :
    ∃ s, requireVol volume t = .ok () s ∧ ∀ q, look s q = look t q := by
  have hsame : ∀ s, Grown [volume] t s → ∀ q, look s q = look t q := by
    intro s hs q
    by_cases hq : q <+: [volume]
    · rw [(hs q).1, if_pos hq, prefix_shows_dir t _ q h hq]
    · rw [(hs q).1, if_neg hq]
  have hok : ∃ s, requireVol volume t = .ok () s := by
    rw [requireVol]
    split_ifs
    · obtain ⟨s,hs⟩ := createDirAll_progress t [volume] (passable_of_dir t _ h)
      exact ⟨s,by rw [createDirs, change, hs]; rfl⟩
    · obtain ⟨es,hes⟩ := get_of_dir t [volume] h
      exact ⟨t,by rw [probe, checkVol, stat, hes]; rfl⟩
  obtain ⟨s,hs⟩ := hok
  exact ⟨s,hs,hsame s (requireVol_ok volume t s _ hs)⟩

theorem delete_dir_look (t : Disk)
    (hdir : look t (filePath volume path) = some .dir) (q : Path) :
    look (left (delete volume path true t)) q =
      if filePath volume path <+: q then none else look t q := by
  have hvol : look t [volume] = some .dir :=
    prefix_shows_dir t _ _ hdir (by simp [filePath])
  obtain ⟨s,hs,hsame⟩ := requireVol_of_dir volume t hvol
  obtain ⟨es,hes⟩ := get_of_dir s _ ((hsame _).trans hdir)
  have hprobe : probe (fun t => (stat t (filePath volume path)).mapError (fileError volume path)) s =
      .ok (.dir es) s := by
    rw [probe, stat, hes]
    rfl
  rw [delete, bind_of_ok hs, bind_of_ok hprobe, removeNode, if_pos rfl,
    moveToTrash_look _ (filePath_ne_nil volume path), hsame]

section Undoing

variable (volume path : String) (fi : FileInfo) (t : Disk)

theorem deleteVersion_restores (b : Bytes)
    (hb : look t (filePath volume path ++ [metaBackupFilename]) = some (.file b))
    (hm : look t (metaPath volume path) ≠ some .dir) (q : Path) :
    look (left (deleteVersion volume path fi t)) q =
      if fi.dataDir ≠ "" ∧ filePath volume path ++ [fi.dataDir] <+: q then none
      else if q = metaPath volume path then some (.file b)
      else if q = filePath volume path ++ [metaBackupFilename] then none
      else look t q := by
  have hdir : look t (filePath volume path) = some .dir := look_above t _ [] _ _ hb
  obtain ⟨s,hs⟩ := rename_progress t _ (filePath volume path) metaFilename b hdir hb hm
  have hlook := look_rename_file t s _ _ hs b hb hm
  rw [deleteVersion, restoreBackup, hs]
  by_cases hdd : fi.dataDir = ""
  · simp only [hdd, if_true, ne_eq, not_true_eq_false, false_and, if_false]
    exact hlook q
  · simp only [hdd, if_false, ne_eq, not_false_eq_true, true_and]
    rw [ignore_left, moveToTrash_look _ (by simp), hlook, metaPath]

theorem deleteVersion_erases (hdir : look t (filePath volume path) = some .dir)
    (hb : look t (filePath volume path ++ [metaBackupFilename]) = none) (q : Path) :
    look (left (deleteVersion volume path fi t)) q =
      if filePath volume path <+: q then none else look t q := by
  have hmissing : rename t (filePath volume path ++ [metaBackupFilename])
      (filePath volume path ++ [metaFilename]) = .error .notFound := by
    apply rename_notFound t _ _ hb
    intro r hr
    rintro ⟨b,hfile⟩
    rcases List.prefix_concat_iff.mp hr with rfl | hr
    · rw [hb] at hfile
      cases hfile
    · rw [prefix_shows_dir t _ r hdir hr] at hfile
      cases hfile
  rw [deleteVersion, restoreBackup, hmissing]
  exact delete_dir_look volume path t hdir q

end Undoing

end Openlake.LocalFs
