import Openlake.Promote

/-!
# When a failed promotion leaves the object as it was

A promotion that misses its quorum undoes the disks that succeeded. On such a
disk the reads of every key and the data dirs of every version survive exactly
under `Restorable`: the undo relies on a backup that is only written when the
version was already there, and removes the whole object directory when it
finds none.
-/

set_option autoImplicit false

namespace Openlake.PromoteUndo
open Openlake.Types XlMeta LocalFs Lib.FileTree Lib.Effects

/-- A key with a directory of its own: it has a segment, and no segment is one
the file system resolves or the backend uses inside an object directory. -/
structure ObjectKey where
  name : String
  nonempty : segments name ≠ []
  plain : ∀ s ∈ segments name, s ≠ "." ∧ s ≠ ".." ∧ s ≠ metaFilename ∧ s ≠ metaBackupFilename

section Undo

variable (c : MetaCodec) (bucket : String)

/-- Every read of every key of the bucket returns what it returned, and the
data dirs of the versions read are still there. -/
structure Kept (t t' : Disk) : Prop where
  reads : ∀ (k : ObjectKey) (id : Option String) (data : Bool),
    value (readVersion c bucket k.name id data t') = value (readVersion c bucket k.name id data t)
  dataDirs : ∀ (k : ObjectKey) (id : Option String) (fi : FileInfo),
    value (readVersion c bucket k.name id false t) = .ok fi → fi.dataDir ≠ "" →
    isDir t (filePath bucket k.name ++ [fi.dataDir]) →
    isDir t' (filePath bucket k.name ++ [fi.dataDir])

/-- Some key has its metadata at or below `root`, or reads a version whose data
dir is at or below `root`. -/
def Live (t : Disk) (root : Path) : Prop :=
  ∃ k : ObjectKey, (root <+: metaPath bucket k.name ∧
      Lib.FileTree.readFile t (metaPath bucket k.name) ≠ .error .notFound) ∨
    ∃ (id : Option String) (fi : FileInfo),
      value (readVersion c bucket k.name id false t) = .ok fi ∧ fi.dataDir ≠ "" ∧
      root <+: filePath bucket k.name ++ [fi.dataDir] ∧
      isDir t (filePath bucket k.name ++ [fi.dataDir])

def Holds (key : String) (t : Disk) (id : String) : Prop :=
  ∃ raw existing, priorVersions c bucket key t = .ok (raw,existing) ∧
    existing.any (fun r => r.versionId = id)

/-- Reading `b` in the place of the key's metadata makes no difference. -/
def SameReads (key : String) (t : Disk) (b : Bytes) : Prop :=
  ∃ raw, Lib.FileTree.readFile t (metaPath bucket key) = .ok raw ∧
    ∀ k : ObjectKey, segments k.name = segments key → ∀ id data,
      versionFrom c bucket k.name b id data = versionFrom c bucket k.name raw id data

def NewDirFree (key : String) (t : Disk) (fi : FileInfo) : Prop :=
  fi.dataDir = "" ∨ ¬Live c bucket t (filePath bucket key ++ [fi.dataDir])

/-- When undoing a promotion gives back the state before it: the version was
already there, so that the backup is this promotion's own; or the backup an
earlier promotion left reads like the live metadata; or there is no backup and
nothing to lose in the object's directory. -/
inductive Restorable (key : String) (t : Disk) (fi : FileInfo) : Prop
  | replaced (held : Holds c bucket key t fi.versionId) (free : NewDirFree c bucket key t fi)
  | stale (b : Bytes) (new : ¬Holds c bucket key t fi.versionId)
      (backup : look t (filePath bucket key ++ [metaBackupFilename]) = some (.file b))
      (same : SameReads c bucket key t b) (free : NewDirFree c bucket key t fi)
  | absent (new : ¬Holds c bucket key t fi.versionId)
      (backup : look t (filePath bucket key ++ [metaBackupFilename]) = none)
      (dead : ¬Live c bucket t (filePath bucket key))

section Paths

variable (k key : ObjectKey)

theorem bucket_above (path : String) : [bucket] <+: filePath bucket path := by simp [filePath]

theorem bucket_above_append (path : String) (r : Path) : [bucket] <+: filePath bucket path ++ r :=
  (bucket_above bucket path).trans (List.prefix_append _ _)

theorem bucket_above_meta (path : String) : [bucket] <+: metaPath bucket path :=
  bucket_above_append bucket path _

theorem metaPath_not_above : ¬metaPath bucket k.name <+: filePath bucket key.name := by
  intro h
  rw [metaPath, filePath, filePath, List.cons_append, List.cons_prefix_cons] at h
  have hmem : metaFilename ∈ segments key.name := h.2.subset (by simp)
  exact (key.plain _ hmem).2.2.1 rfl

theorem metaPath_below_meta (h : metaPath bucket key.name <+: metaPath bucket k.name) :
    segments k.name = segments key.name := by
  simp only [metaPath, filePath, List.cons_append, List.cons_prefix_cons, true_and] at h
  rcases List.prefix_concat_iff.mp h with he | hp
  · exact (List.append_cancel_right he).symm
  · exact absurd rfl (k.plain _ (hp.subset (by simp))).2.2.1

theorem metaPath_not_below_backup :
    ¬filePath bucket key.name ++ [metaBackupFilename] <+: metaPath bucket k.name := by
  intro h
  simp only [metaPath, filePath, List.cons_append, List.cons_prefix_cons, true_and] at h
  rcases List.prefix_concat_iff.mp h with he | hp
  · have := (List.append_inj' he rfl).2
    simp [metaFilename, metaBackupFilename] at this
  · exact (k.plain _ (hp.subset (by simp))).2.2.2 rfl

end Paths

/-- What an undo leaves of a disk: nothing of what is `gone`, the restored
metadata, and everything else as it was up to the directories above the
object. -/
structure Undone (key : ObjectKey) (gone : Path → Prop) (t t' : Disk) : Prop where
  volume : ∃ u s, requireVol bucket t = .ok u s
  above : ∀ q, q <+: filePath bucket key.name → look t q = none ∨ look t q = some .dir
  meta_file : look t (metaPath bucket key.name) ≠ some .dir
  backup_file : look t (filePath bucket key.name ++ [metaBackupFilename]) ≠ some .dir
  spares : ¬gone [bucket]
  below : ∀ q r, gone q → q <+: r → gone r
  rooted : ∀ q r, gone r → q <+: r → gone q ∨ q <+: filePath bucket key.name
  erased : ∀ q, gone q → look t' q = none
  others : ∀ q, [bucket] <+: q → ¬gone q → q ≠ metaPath bucket key.name →
    q ≠ filePath bucket key.name ++ [metaBackupFilename] →
    look t' q = if q <+: filePath bucket key.name then some .dir else look t q

def Spared (gone : Path → Prop) (t : Disk) : Prop :=
  (∀ k : ObjectKey, gone (metaPath bucket k.name) →
    Lib.FileTree.readFile t (metaPath bucket k.name) = .error .notFound) ∧
  ∀ (k : ObjectKey) (id : Option String) (fi : FileInfo),
    value (readVersion c bucket k.name id false t) = .ok fi → fi.dataDir ≠ "" →
    isDir t (filePath bucket k.name ++ [fi.dataDir]) →
    ¬gone (filePath bucket k.name ++ [fi.dataDir])

theorem spared_iff_not_live (t : Disk) (root : Path) :
    Spared c bucket (fun q => root <+: q) t ↔ ¬Live c bucket t root := by
  constructor
  · rintro ⟨hmeta,hdirs⟩ ⟨k,⟨hroot,hr⟩ | ⟨id,fi,hfi,hdd,hroot,hdir⟩⟩
    · exact hr (hmeta k hroot)
    · exact hdirs k id fi hfi hdd hdir hroot
  · intro h
    constructor
    · intro k hroot
      by_contra hr
      exact h ⟨k,.inl ⟨hroot,hr⟩⟩
    · intro k id fi hfi hdd hdir hroot
      exact h ⟨k,.inr ⟨id,fi,hfi,hdd,hroot,hdir⟩⟩

section Outcome

variable {bucket} {key : ObjectKey} {gone : Path → Prop} {t t' : Disk}

section

variable (h : Undone bucket key gone t t')

include h

theorem Undone.volume_dir : look t' [bucket] = some .dir := by
  rw [h.others _ List.prefix_rfl h.spares (by simp [metaPath, filePath]) (by simp [filePath])]
  simp [filePath]

theorem Undone.volume_after :
    ∃ u s, requireVol bucket t' = .ok u s := by
  obtain ⟨s,hs,-⟩ := requireVol_of_dir bucket t' h.volume_dir
  exact ⟨_,s,hs⟩

theorem Undone.shows_above (q : Path)
    (hq : q <+: filePath bucket key.name) : ¬ShowsFile t' q := by
  rintro ⟨b,hb⟩
  rcases List.prefix_or_prefix_of_prefix hq (bucket_above bucket key.name) with hle | hge
  · rw [prefix_shows_dir t' _ _ h.volume_dir hle] at hb
    cases hb
  · by_cases hg : gone q
    · rw [h.erased _ hg] at hb
      cases hb
    · have hmeta : q ≠ metaPath bucket key.name := by
        rintro rfl
        simpa [metaPath] using hq.length_le
      have hbkp : q ≠ filePath bucket key.name ++ [metaBackupFilename] := by
        rintro rfl
        simpa using hq.length_le
      rw [h.others q hge hg hmeta hbkp, if_pos hq] at hb
      cases hb

theorem Undone.reads_gone (k : ObjectKey)
    (hg : gone (metaPath bucket k.name)) :
    Lib.FileTree.readFile t' (metaPath bucket k.name) = .error .notFound := by
  apply readFile_notFound t' _ (h.erased _ hg)
  intro q hq hfile
  rcases h.rooted q _ hg hq with hgone | hup
  · obtain ⟨b,hb⟩ := hfile
    rw [h.erased q hgone] at hb
    cases hb
  · exact h.shows_above q hup hfile

theorem Undone.reads_other (k : ObjectKey)
    (hg : ¬gone (metaPath bucket k.name)) (hk : segments k.name ≠ segments key.name) :
    Lib.FileTree.readFile t' (metaPath bucket k.name) =
      Lib.FileTree.readFile t (metaPath bucket k.name) := by
  have hothers : ∀ q, [bucket] <+: q → q <+: metaPath bucket k.name → look t' q =
      if q <+: filePath bucket key.name then some .dir else look t q := by
    intro q hb hq
    apply h.others q hb (fun hgone => hg (h.below _ _ hgone hq))
    · rintro rfl
      exact hk (metaPath_below_meta bucket k key hq)
    · rintro rfl
      exact metaPath_not_below_backup bucket k key hq
  apply readFile_congr t t'
  · exact (hothers _ (bucket_above_meta bucket k.name) List.prefix_rfl).trans
      (if_neg (metaPath_not_above bucket k key))
  · intro q hq
    by_cases hup : q <+: filePath bucket key.name
    · refine iff_of_false (h.shows_above q hup) ?_
      rintro ⟨b,hb⟩
      rcases h.above q hup with hn | hd
      · rw [hn] at hb
        cases hb
      · rw [hd] at hb
        cases hb
    · rcases List.prefix_or_prefix_of_prefix hq (bucket_above_meta bucket k.name) with hle | hge
      · exact absurd (hle.trans (bucket_above bucket key.name)) hup
      · rw [ShowsFile, ShowsFile, hothers q hge hq, if_neg hup]

theorem Undone.dir_stays (k : ObjectKey) (d : String)
    (hg : ¬gone (filePath bucket k.name ++ [d])) (hdir : isDir t (filePath bucket k.name ++ [d])) :
    isDir t' (filePath bucket k.name ++ [d]) := by
  rw [isDir_iff] at hdir ⊢
  rw [h.others _ (bucket_above_append bucket k.name _) hg (fun he => h.meta_file (he ▸ hdir))
    (fun he => h.backup_file (he ▸ hdir)), hdir]
  simp

end

theorem value_gone_ne (k : ObjectKey) (hvol : ∃ u s, requireVol bucket t = .ok u s)
    (hr : Lib.FileTree.readFile t (metaPath bucket k.name) ≠ .error .notFound)
    (id : Option String) (data : Bool) :
    value (readVersion c bucket k.name id data t) ≠ .error (.fileNotFound bucket k.name) := by
  rw [readVersion_value c bucket k.name t hvol]
  cases hread : Lib.FileTree.readFile t (metaPath bucket k.name) with
  | ok bytes => exact found_versionFrom c bucket k.name bytes id data bucket k.name
  | error e =>
    cases e
    case notFound => exact absurd hread hr
    all_goals exact nofun

/-- The disk is kept exactly when nothing live is gone and, unless the metadata
itself is gone, the restored metadata reads like the old. -/
theorem Undone.kept_iff (h : Undone bucket key gone t t') :
    Kept c bucket t t' ↔ Spared c bucket gone t ∧
      (¬gone (metaPath bucket key.name) → ∀ k : ObjectKey, segments k.name = segments key.name →
        ∀ id data, value (readVersion c bucket k.name id data t') =
          value (readVersion c bucket k.name id data t)) := by
  have hvol' := h.volume_after
  constructor
  · intro hkept
    refine ⟨⟨fun k hg => ?_,fun k id fi hfi hdd hdir hg => ?_⟩,fun _ k _ => hkept.reads k⟩
    · by_contra hr
      apply value_gone_ne c k h.volume hr none true
      rw [← hkept.reads k none true, readVersion_value c bucket k.name t' hvol', h.reads_gone k hg]
      rfl
    · have := hkept.dataDirs k id fi hfi hdd hdir
      rw [isDir_iff, h.erased _ hg] at this
      cases this
  · rintro ⟨⟨hmeta,hdirs⟩,hmain⟩
    refine ⟨fun k id data => ?_,fun k id fi hfi hdd hdir =>
      h.dir_stays k _ (hdirs k id fi hfi hdd hdir) hdir⟩
    by_cases hg : gone (metaPath bucket k.name)
    · rw [readVersion_value c bucket k.name t' hvol', readVersion_value c bucket k.name t h.volume,
        h.reads_gone k hg, hmeta k hg]
    · by_cases hk : segments k.name = segments key.name
      · exact hmain (by rwa [metaPath, filePath, ← hk]) k hk id data
      · rw [readVersion_value c bucket k.name t' hvol', readVersion_value c bucket k.name t h.volume,
          h.reads_other k hg hk]

theorem spared_iff_newDirFree (fi : FileInfo) :
    Spared c bucket (fun q => fi.dataDir ≠ "" ∧
      filePath bucket key.name ++ [fi.dataDir] <+: q) t ↔ NewDirFree c bucket key.name t fi := by
  by_cases hdd : fi.dataDir = ""
  · simp [Spared, NewDirFree, hdd]
  · simp only [ne_eq, hdd, not_false_eq_true, true_and, NewDirFree, false_or]
    exact spared_iff_not_live c bucket t _

end Outcome

end Undo

end Openlake.PromoteUndo
