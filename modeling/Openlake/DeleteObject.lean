import Openlake.LocalFsEffects

/-!
# Deleting an object

The data dirs the metadata names go to the trash, then the metadata and its
backup are removed, then the directories above them as long as they are empty
and inside the volume.
-/

set_option autoImplicit false

namespace Openlake.LocalFs
open Openlake.Types XlMeta XlMetaRoundTrip Lib.FileTree Lib.Effects

def removeFileAt (p : Path) : Fs Unit := change (fun t => (removeFile t p).mapError osError)

def trashDataDirs (object : Path) : List DecodedRecord → Fs Unit
  | [] => pure ()
  | r::rs => do
    if r.dataDir ≠ "" then ignore (moveToTrash (object ++ [r.dataDir]))
    trashDataDirs object rs

/-- Takes the path below the volume from its end. -/
def removeEmptyDirs (volume : String) : Path → Fs Unit
  | [] => pure ()
  | s::up => fun t =>
    match removeDir t (volume::(s::up).reverse) with
    | .ok t => removeEmptyDirs volume up t
    | .error _ => .ok () t

/-- A metadata file that does not decode names no data dirs. -/
def deleteObjectScoped (c : MetaCodec) (volume path : String) : Fs Unit := do
  requireVol volume
  let object := filePath volume path
  let raw ← probe (fun t =>
    (Lib.FileTree.readFile t (metaPath volume path)).mapError (fileError volume path))
  trashDataDirs object ((decodeAll c raw).toOption.getD [])
  removeFileAt (metaPath volume path)
  ignore (removeFileAt (object ++ [metaBackupFilename]))
  removeEmptyDirs volume (segments path).reverse

theorem trashDataDirs_ok (object : Path) (rs : List DecodedRecord) (t : Disk) :
    ∃ t', trashDataDirs object rs t = .ok () t' ∧ ∀ q, look t' q =
      if ∃ r ∈ rs, r.dataDir ≠ "" ∧ object ++ [r.dataDir] <+: q then none else look t q := by
  induction rs generalizing t with
  | nil => exact ⟨t,rfl,fun q => by simp⟩
  | cons r rs ih =>
    rw [trashDataDirs]
    by_cases hr : r.dataDir = ""
    · obtain ⟨t',ht',hlook⟩ := ih t
      refine ⟨t',by simpa [hr] using ht',fun q => ?_⟩
      rw [hlook]
      simp [hr]
    · obtain ⟨t',ht',hlook⟩ := ih (left (moveToTrash (object ++ [r.dataDir]) t))
      refine ⟨t',?_,fun q => ?_⟩
      · rw [if_pos hr]
        exact ht'
      · rw [hlook, moveToTrash_look _ (by simp)]
        by_cases hq : object ++ [r.dataDir] <+: q
        · simp [hq, hr]
        · simp [hq]

theorem removeEmptyDirs_ok (volume : String) (up : Path) (t : Disk) :
    ∃ t', removeEmptyDirs volume up t = .ok () t' ∧ ∀ q, look t' q = look t q ∨
      (q <+: volume::up.reverse ∧ ¬q <+: [volume] ∧ look t q = some .dir ∧ look t' q = none) := by
  induction up generalizing t with
  | nil => exact ⟨t,rfl,fun q => .inl rfl⟩
  | cons s up ih =>
    rw [removeEmptyDirs]
    cases hr : removeDir t (volume::(s::up).reverse) with
    | error e => exact ⟨t,by simp only [hr],fun q => .inl rfl⟩
    | ok u =>
      obtain ⟨hdir,-,hlook⟩ := look_removeDir t u _ hr
      obtain ⟨t',ht',hrest⟩ := ih u
      refine ⟨t',by simpa only [hr] using ht',fun q => ?_⟩
      have hup : volume::up.reverse <+: volume::(s::up).reverse := by
        rw [List.reverse_cons, List.cons_prefix_cons]
        exact ⟨rfl,List.prefix_append _ _⟩
      rcases hrest q with hsame | ⟨hq,hv,hd,hn⟩
      · by_cases he : q = volume::(s::up).reverse
        · refine .inr ⟨he ▸ List.prefix_rfl,fun hp => ?_,he ▸ hdir,?_⟩
          · rw [he] at hp
            simpa using hp.length_le
          · rw [hsame, hlook, if_pos he]
        · rw [hsame, hlook, if_neg he]
          exact .inl rfl
      · refine .inr ⟨hq.trans hup,hv,?_,hn⟩
        rw [hlook] at hd
        split_ifs at hd
        exact hd

/-- What a deleted object leaves: its metadata and the data dirs it named are
gone, a directory above may be gone when it became empty, and apart from a
backup file the rest is as it was. -/
structure Deleted (c : MetaCodec) (volume path : String) (raw : Bytes) (t t' : Disk) : Prop where
  meta_gone : look t' (metaPath volume path) = none
  above : ∀ q, q <+: filePath volume path → look t' q = some .dir ∨
    (look t' q = none ∧ ¬q <+: [volume])
  dirs_gone : ∀ r ∈ (decodeAll c raw).toOption.getD [], r.dataDir ≠ "" →
    ∀ q, filePath volume path ++ [r.dataDir] <+: q → look t' q = none
  others : ∀ q, ¬q <+: filePath volume path → q ≠ metaPath volume path →
    (q = filePath volume path ++ [metaBackupFilename] → ¬ShowsFile t q) →
    (∀ r ∈ (decodeAll c raw).toOption.getD [], r.dataDir ≠ "" →
      ¬filePath volume path ++ [r.dataDir] <+: q) → look t' q = look t q

theorem removeFileAt_left (p : Path) (t : Disk) (q : Path) (hq : q = p → ¬ShowsFile t q) :
    look (left (removeFileAt p t)) q = look t q := by
  rw [removeFileAt, change]
  cases hr : removeFile t p with
  | error e => rfl
  | ok u =>
    obtain ⟨⟨b,hb⟩,hlook⟩ := look_removeFile t u p hr
    rw [show left _ = u from rfl, hlook, if_neg]
    rintro rfl
    exact hq rfl ⟨b,hb⟩

theorem formatDataDirBytes_ne (u : VersionIds.Uuid) :
    VersionIds.formatDataDirBytes u ≠ metaFilename ∧
      VersionIds.formatDataDirBytes u ≠ metaBackupFilename := by
  rw [VersionIds.formatDataDirBytes]
  split_ifs
  · decide
  · exact ⟨VersionIds.formatUuidHex_ne u _ (by decide),VersionIds.formatUuidHex_ne u _ (by decide)⟩

theorem decoded_dataDir_ne (c : MetaCodec) (raw : Bytes) (r : DecodedRecord)
    (hr : r ∈ (decodeAll c raw).toOption.getD []) :
    r.dataDir ≠ metaFilename ∧ r.dataDir ≠ metaBackupFilename := by
  cases hd : decodeAll c raw with
  | error e => simp [hd, Except.toOption] at hr
  | ok rs =>
    obtain ⟨v,-,hv⟩ := decodeAll_spelled c raw rs hd r (by simpa [hd, Except.toOption] using hr)
    rw [hv]
    exact formatDataDirBytes_ne v.dataDir

section Deletion

variable (c : MetaCodec) (volume path : String) (t : Disk)

theorem metaPath_not_volume : ¬metaPath volume path <+: [volume] := fun hp => by
  simpa [metaPath, filePath] using hp.length_le

theorem deleteObjectScoped_error (h : ∀ raw, Lib.FileTree.readFile t (metaPath volume path) ≠ .ok raw) :
    ∃ e t', deleteObjectScoped c volume path t = .error e t' ∧ (t' = t ∨ Grown [volume] t t') := by
  rcases requireVol_left volume t with ⟨u,s,hs,hgrown⟩ | ⟨e,he⟩
  · have hread := hgrown.readFile (metaPath_not_volume volume path)
    cases hr : Lib.FileTree.readFile t (metaPath volume path) with
    | ok raw => exact absurd hr (h raw)
    | error e =>
      rw [hr] at hread
      refine ⟨fileError volume path e,s,?_,.inr hgrown⟩
      rw [deleteObjectScoped, bind_of_ok hs,
        bind_of_error (e := fileError volume path e) (t := s) (by rw [probe, hread]; rfl)]
  · exact ⟨e,t,by rw [deleteObjectScoped, bind_of_error he],.inl rfl⟩

theorem deleteObjectScoped_ok (raw : Bytes)
    (h : Lib.FileTree.readFile t (metaPath volume path) = .ok raw) :
    ∃ t', deleteObjectScoped c volume path t = .ok () t' ∧ Deleted c volume path raw t t' := by
  have hfile : look t (metaPath volume path) = some (.file raw) := (readFile_eq_ok t _ raw).mp h
  have hobject : look t (filePath volume path) = some .dir := look_above t _ [] metaFilename _ hfile
  have hvol : look t [volume] = some .dir :=
    prefix_shows_dir t _ _ hobject (by simp [filePath])
  obtain ⟨s,hs,l0⟩ := requireVol_of_dir volume t hvol
  obtain ⟨s1,h1,l1⟩ := trashDataDirs_ok (filePath volume path)
    ((decodeAll c raw).toOption.getD []) s
  have hspared : ∀ q, q <+: metaPath volume path → ¬∃ r ∈ (decodeAll c raw).toOption.getD [],
      r.dataDir ≠ "" ∧ filePath volume path ++ [r.dataDir] <+: q := by
    rintro q hq ⟨r,hr,-,hp⟩
    have := hp.trans hq
    rw [metaPath, List.prefix_append_right_inj] at this
    exact (decoded_dataDir_ne c raw r hr).1 (by simpa using this)
  have hmeta : look s1 (metaPath volume path) = some (.file raw) := by
    rw [l1, if_neg (hspared _ List.prefix_rfl), l0, hfile]
  obtain ⟨s2,h2⟩ := removeFile_progress s1 _ raw (by simp [metaPath]) hmeta
  have l2 := (look_removeFile s1 s2 _ h2).2
  have l3 := removeFileAt_left (filePath volume path ++ [metaBackupFilename]) s2
  obtain ⟨t',h4,l4⟩ := removeEmptyDirs_ok volume (segments path).reverse
    (left (removeFileAt (filePath volume path ++ [metaBackupFilename]) s2))
  rw [List.reverse_reverse] at l4
  refine ⟨t',?_,?_,?_,?_,?_⟩
  · rw [deleteObjectScoped, bind_of_ok hs,
      bind_of_ok (a := raw) (t := s) (by rw [probe, (readFile_eq_ok s _ raw).mpr ((l0 _).trans hfile)]; rfl),
      bind_of_ok h1, bind_of_ok (a := ()) (t := s2) (by rw [removeFileAt, change, h2]; rfl)]
    exact h4
  · have hne : metaPath volume path ≠ filePath volume path ++ [metaBackupFilename] := by
      simp [metaPath, metaFilename, metaBackupFilename]
    rcases l4 (metaPath volume path) with hsame | ⟨-,-,-,hnone⟩
    · rw [hsame, l3 _ (fun he => absurd he hne), l2, if_pos rfl]
    · exact hnone
  · intro q hq
    have hmetaq : q ≠ metaPath volume path := by
      rintro rfl
      simpa [metaPath] using hq.length_le
    have hbkp : q ≠ filePath volume path ++ [metaBackupFilename] := by
      rintro rfl
      simpa using hq.length_le
    rcases l4 q with hsame | ⟨-,hv,-,hnone⟩
    · rw [hsame, l3 _ (fun he => absurd he hbkp), l2, if_neg hmetaq, l1,
        if_neg (hspared q (hq.trans (List.prefix_append _ _))), l0]
      exact .inl (prefix_shows_dir t _ q hobject hq)
    · exact .inr ⟨hnone,hv⟩
  · intro r hr hdd q hq
    have hgone : look s2 q = none := by
      rw [l2, l1 q, if_pos (show ∃ r ∈ (decodeAll c raw).toOption.getD [], r.dataDir ≠ "" ∧
        filePath volume path ++ [r.dataDir] <+: q from ⟨r,hr,hdd,hq⟩), ite_self]
    rcases l4 q with hsame | ⟨-,-,-,hnone⟩
    · rw [hsame, l3 q (by rintro - ⟨b,hb⟩; simp [hgone] at hb), hgone]
    · exact hnone
  · intro q hup hmetaq hbkp hdirs
    have hkept : look s2 q = look t q := by
      rw [l2, if_neg hmetaq, l1, if_neg (by rintro ⟨r,hr,hdd,hp⟩; exact hdirs r hr hdd hp), l0]
    rcases l4 q with hsame | ⟨hq,-⟩
    · rw [hsame, l3 q (fun he => by rw [ShowsFile, hkept]; exact hbkp he), hkept]
    · exact absurd hq hup

theorem Deleted.readFile {c : MetaCodec} {volume path : String} {raw : Bytes} {t t' : Disk}
    (h : Deleted c volume path raw t t') :
    Lib.FileTree.readFile t' (metaPath volume path) = .error .notFound := by
  apply readFile_notFound t' _ h.meta_gone
  rintro q hq ⟨b,hb⟩
  rcases List.prefix_concat_iff.mp hq with rfl | hq
  · rw [← metaPath, h.meta_gone] at hb
    cases hb
  · rcases h.above q hq with hd | ⟨hn,-⟩
    · rw [hd] at hb
      cases hb
    · rw [hn] at hb
      cases hb

end Deletion

end Openlake.LocalFs
