import Openlake.FileCalls
import Openlake.RecordBytes

/-!
# A promotion with injected errors

Every file system call of a promotion is a site at which the system can return
an error. A write that fails may leave any bytes in its file; the other calls
fail without effect. The commit is the rename of the staged metadata, and the
object directory is flushed after it: an error there is reported although the
new metadata is already live.
-/

set_option autoImplicit false

namespace Openlake.RenameFaults
open Openlake.Types XlMeta LocalFs RecordBytes Lib.FileTree Lib.Effects

inductive Site where
  | volume | readMeta
  | stagedDir | openStaged | writeStaged | syncStaged | closeStaged
  | statDataDir | dataDirParent | moveDataDir
  | backupDir | openBackup | writeBackup | syncBackup | closeBackup
  | objectDir | commit
  | openObjectDir | syncObjectDir | closeObjectDir
  | removeStaged
  deriving DecidableEq

structure Fault where
  kind : ErrorKind
  msg : String
  written : Bytes := []

def Fault.error (f : Fault) : IoError := .io f.kind f.msg

abbrev Faults := Site → Option Fault

def trip (faults : Faults) (site : Site) : Fs Unit :=
  match faults site with
  | none => pure ()
  | some f => lift (.error f.error)

def requireVolFaulty (faults : Faults) (volume : String) : Fs Unit :=
  match faults .volume with
  | none => requireVol volume
  | some f =>
    lift (.error (if isSystemVol volume = false ∧ f.kind = .notFound then .volumeNotFound volume
      else f.error))

def priorVersionsFaulty (c : MetaCodec) (faults : Faults) (volume path : String) (t : Disk) :
    Except IoError (Option Bytes × List DecodedRecord) :=
  match faults .readMeta with
  | none => priorVersions c volume path t
  | some f => if f.kind = .notFound then .ok (none,[]) else .error f.error

def writeAllAt (faults : Faults) (site : Site) (bytes : Bytes) (p : Path) : Fs Unit :=
  match faults site with
  | none => overwrite bytes p
  | some f => do
    overwrite f.written p
    lift (.error f.error)

/-- Opens, writes, flushes and closes a file. -/
def writeThrough (faults : Faults) (openSite writeSite syncSite closeSite : Site) (bytes : Bytes)
    (p : Path) : Fs Unit := do
  trip faults openSite
  writeAllAt faults writeSite bytes p
  trip faults syncSite
  trip faults closeSite

/-- An error while looking for the staged data dir counts as none staged. -/
def moveDataDirFaulty (faults : Faults) (staged object : Path) (dataDir : String) : Fs Unit :=
  fun t =>
    if dataDir ≠ "" ∧ faults .statDataDir = none ∧ isDir t (staged ++ [dataDir]) then
      (do
        trip faults .dataDirParent
        createDirs object
        trip faults .moveDataDir
        renameNode (staged ++ [dataDir]) (object ++ [dataDir])) t
    else .ok () t

def writeBackupFaulty (faults : Faults) (object : Path) (priorSameVidExisted : Bool) :
    Option Bytes → Fs Unit
  | some raw =>
    if priorSameVidExisted then do
      trip faults .backupDir
      createDirs object
      writeThrough faults .openBackup .writeBackup .syncBackup .closeBackup raw
        (object ++ [metaBackupFilename])
    else pure ()
  | none => pure ()

/-- Everything before the commit; returns the replaced version's data dir. -/
def prepare (c : MetaCodec) (faults : Faults) (srcVolume srcPath : String) (fi : FileInfo)
    (dstVolume dstPath : String) : Fs String := do
  lift (refuse (isSystemVol srcVolume = false) (.invalidArgument
    ("rename_data: src_volume must be a system volume (got " ++ srcVolume ++ ")")))
  requireVolFaulty faults dstVolume
  let (preXlMetaRaw,existing) ← probe (priorVersionsFaulty c faults dstVolume dstPath)
  let encoded ← lift (encodeVersions c (mergeVersions fi dstVolume dstPath existing))
  let staged := filePath srcVolume srcPath
  let object := filePath dstVolume dstPath
  trip faults .stagedDir
  createDirs staged
  writeThrough faults .openStaged .writeStaged .syncStaged .closeStaged encoded
    (staged ++ [metaFilename])
  moveDataDirFaulty faults staged object fi.dataDir
  writeBackupFaulty faults object (existing.any (fun r => r.versionId = fi.versionId)) preXlMetaRaw
  trip faults .objectDir
  createDirs object
  return (oldDataDir fi existing).getD ""

def fsyncDir (faults : Faults) : Fs Unit := do
  trip faults .openObjectDir
  trip faults .syncObjectDir
  trip faults .closeObjectDir

def commit (c : MetaCodec) (faults : Faults) (srcVolume srcPath : String) (fi : FileInfo)
    (dstVolume dstPath : String) : Fs String := do
  let old ← prepare c faults srcVolume srcPath fi dstVolume dstPath
  trip faults .commit
  renameNode (filePath srcVolume srcPath ++ [metaFilename]) (metaPath dstVolume dstPath)
  return old

def renameDataFaulty (c : MetaCodec) (faults : Faults) (srcVolume srcPath : String) (fi : FileInfo)
    (dstVolume dstPath : String) : Fs String := do
  let old ← commit c faults srcVolume srcPath fi dstVolume dstPath
  fsyncDir faults
  ignore (do
    trip faults .removeStaged
    change (fun t => (removeDir t (filePath srcVolume srcPath)).mapError osError))
  return old

/-- Without faults this is the promotion of the backend. -/
theorem renameDataFaulty_none (c : MetaCodec) (srcVolume srcPath : String) (fi : FileInfo)
    (dstVolume dstPath : String) :
    renameDataFaulty c (fun _ => none) srcVolume srcPath fi dstVolume dstPath =
      renameData c srcVolume srcPath fi dstVolume dstPath := by
  have hprior : priorVersionsFaulty c (fun _ => none) dstVolume dstPath =
      priorVersions c dstVolume dstPath := rfl
  have hmove : ∀ staged object dataDir, moveDataDirFaulty (fun _ => none) staged object dataDir =
      moveDataDir staged object dataDir := by
    intro staged object dataDir
    funext t
    simp [moveDataDirFaulty, moveDataDir, trip]
  have hbackup : ∀ object held raw, writeBackupFaulty (fun _ => none) object held raw =
      writeBackup object held raw := by
    intro object held raw
    cases raw <;> simp [writeBackupFaulty, writeBackup, writeThrough, writeAllAt, trip]
  simp [renameDataFaulty, renameData, commit, prepare, fsyncDir, trip, requireVolFaulty, writeThrough,
    writeAllAt, hprior, hmove, hbackup, metaPath]

section Live

variable (faults : Faults) (q : Path) (k : Option (Kind Bytes))

theorem trip_bind {α : Type} (site : Site) (x : Fs α) (t : Disk) :
    (trip faults site >>= fun _ => x) t =
      match faults site with
      | none => x t
      | some f => .error f.error t := by
  rw [trip]
  cases faults site <;> rfl

theorem keeps_trip (I : Disk → Prop) (site : Site) : Keeps I (trip faults site) := by
  rw [trip]
  cases faults site with
  | none => exact keeps_pure ()
  | some f => exact keeps_lift _

theorem keeps_requireVolFaulty (volume : String) (hq : ¬q <+: [volume]) :
    Keeps (fun t => look t q = k) (requireVolFaulty faults volume) := by
  rw [requireVolFaulty]
  split
  · exact keeps_requireVol q k volume hq
  · exact keeps_lift _

theorem keeps_writeAllAt (site : Site) (bytes : Bytes) (p : Path) (hq : q ≠ p) :
    Keeps (fun t => look t q = k) (writeAllAt faults site bytes p) := by
  rw [writeAllAt]
  cases faults site with
  | none => exact keeps_overwrite q k bytes p hq
  | some f =>
    apply keeps_bind (keeps_overwrite q k f.written p hq)
    intro _ _ _ _
    exact keeps_lift _

theorem keeps_writeThrough (o w s cl : Site) (bytes : Bytes) (p : Path) (hq : q ≠ p) :
    Keeps (fun t => look t q = k) (writeThrough faults o w s cl bytes p) := by
  rw [writeThrough]
  apply keeps_bind (keeps_trip faults _ o) fun _ _ _ _ => ?_
  apply keeps_bind (keeps_writeAllAt faults q k w bytes p hq) fun _ _ _ _ => ?_
  apply keeps_bind (keeps_trip faults _ s) fun _ _ _ _ => ?_
  exact keeps_trip faults _ cl

theorem keeps_moveDataDirFaulty (staged object : Path) (dataDir : String)
    (hq : ¬q <+: object) (hsrc : ¬staged ++ [dataDir] <+: q) (hdst : ¬object ++ [dataDir] <+: q) :
    Keeps (fun t => look t q = k) (moveDataDirFaulty faults staged object dataDir) := by
  have hmove : Keeps (fun t => look t q = k) (do
      trip faults .dataDirParent
      createDirs object
      trip faults .moveDataDir
      renameNode (staged ++ [dataDir]) (object ++ [dataDir])) := by
    apply keeps_bind (keeps_trip faults _ _) fun _ _ _ _ => ?_
    apply keeps_bind (keeps_createDirs q k object hq) fun _ _ _ _ => ?_
    apply keeps_bind (keeps_trip faults _ _) fun _ _ _ _ => ?_
    exact keeps_renameNode q k _ _ hsrc hdst
  constructor
  intro t ht
  rw [moveDataDirFaulty]
  split_ifs
  · exact hmove.kept t ht
  · exact ht

theorem keeps_writeBackupFaulty (object : Path) (held : Bool) (raw : Option Bytes)
    (hq : ¬q <+: object) (hbkp : q ≠ object ++ [metaBackupFilename]) :
    Keeps (fun t => look t q = k) (writeBackupFaulty faults object held raw) := by
  cases raw with
  | none => exact keeps_pure ()
  | some bytes =>
    rw [writeBackupFaulty]
    split_ifs
    · apply keeps_bind (keeps_trip faults _ _) fun _ _ _ _ => ?_
      apply keeps_bind (keeps_createDirs q k object hq) fun _ _ _ _ => ?_
      exact keeps_writeThrough faults q k _ _ _ _ bytes _ hbkp
    · exact keeps_pure ()

end Live

section Commit

variable (c : MetaCodec) (faults : Faults) (srcVolume srcPath : String) (fi : FileInfo)
  (dstVolume dstPath : String)

theorem keeps_prepare (hvol : srcVolume ≠ dstVolume) (k : Option (Kind Bytes)) :
    Keeps (fun t => look t (metaPath dstVolume dstPath) = k)
      (prepare c faults srcVolume srcPath fi dstVolume dstPath) := by
  have hapart : Apart (filePath srcVolume srcPath) (metaPath dstVolume dstPath) :=
    apart_cons hvol _ _
  have hobject : ¬metaPath dstVolume dstPath <+: filePath dstVolume dstPath := fun hp => by
    simpa [metaPath] using hp.length_le
  have hbkp : metaPath dstVolume dstPath ≠ filePath dstVolume dstPath ++ [metaBackupFilename] := by
    simp [metaPath, metaFilename, metaBackupFilename]
  have hvolume : ¬metaPath dstVolume dstPath <+: [dstVolume] := fun hp => by
    simpa [metaPath, filePath] using hp.length_le
  have hstaged : metaPath dstVolume dstPath ≠ filePath srcVolume srcPath ++ [metaFilename] :=
    fun he => (hapart.append_left [metaFilename]).1 (he ▸ List.prefix_rfl)
  rw [prepare]
  apply keeps_bind (keeps_lift _) fun _ _ _ _ => ?_
  apply keeps_bind (keeps_requireVolFaulty faults _ k dstVolume hvolume) fun _ _ _ _ => ?_
  apply keeps_bind (keeps_probe _) fun prior _ _ _ => ?_
  apply keeps_bind (keeps_lift _) fun encoded _ _ henc => ?_
  have hnames := dataDir_ne_file_names c _ encoded ((lift_eq_ok _ _ _ _).mp henc).1 fi
    ((List.mem_insertionSort _).mpr (by simp))
  have hdir : ¬filePath dstVolume dstPath ++ [fi.dataDir] <+: metaPath dstVolume dstPath := by
    rw [metaPath, List.prefix_append_right_inj]
    simpa using hnames.1
  apply keeps_bind (keeps_trip faults _ _) fun _ _ _ _ => ?_
  apply keeps_bind (keeps_createDirs _ k _ hapart.2) fun _ _ _ _ => ?_
  apply keeps_bind (keeps_writeThrough faults _ k _ _ _ _ encoded _ hstaged) fun _ _ _ _ => ?_
  apply keeps_bind (keeps_moveDataDirFaulty faults _ k _ _ fi.dataDir hobject
    (hapart.append_left _).1 hdir) fun _ _ _ _ => ?_
  apply keeps_bind (keeps_writeBackupFaulty faults _ k _ _ _ hobject hbkp) fun _ _ _ _ => ?_
  apply keeps_bind (keeps_trip faults _ _) fun _ _ _ _ => ?_
  apply keeps_bind (keeps_createDirs _ k _ hobject) fun _ _ _ _ => ?_
  exact keeps_pure _

theorem commit_error (hvol : srcVolume ≠ dstVolume) (t t' : Disk) (e : IoError)
    (h : commit c faults srcVolume srcPath fi dstVolume dstPath t = .error e t') :
    look t' (metaPath dstVolume dstPath) = look t (metaPath dstVolume dstPath) := by
  have hkept := (keeps_prepare c faults srcVolume srcPath fi dstVolume dstPath hvol _).kept t rfl
  rw [commit] at h
  cases hp : prepare c faults srcVolume srcPath fi dstVolume dstPath t with
  | error e' s =>
    rw [hp] at hkept
    rw [bind_of_error hp] at h
    cases h
    exact hkept
  | ok old s =>
    rw [hp] at hkept
    rw [bind_of_ok hp, trip_bind] at h
    cases hf : faults .commit with
    | some f =>
      rw [hf] at h
      cases h
      exact hkept
    | none =>
      simp only [hf] at h
      cases hr : renameNode (filePath srcVolume srcPath ++ [metaFilename])
          (metaPath dstVolume dstPath) s with
      | ok u s' =>
        rw [bind_of_ok hr] at h
        cases h
      | error e' s' =>
        rw [bind_of_error hr] at h
        cases h
        rw [change_error hr]
        exact hkept

/-- The calls that flush the object directory after the commit. -/
def Site.flushes : Site → Bool
  | .openObjectDir | .syncObjectDir | .closeObjectDir => true
  | _ => false

def withoutFlush (faults : Faults) : Faults := fun site => if site.flushes then none else faults site

theorem commit_withoutFlush :
    commit c (withoutFlush faults) = commit c faults := rfl

theorem fsyncDir_cases (t : Disk) :
    ((∀ site : Site, site.flushes → faults site = none) ∧ fsyncDir faults t = .ok () t) ∨
      ((¬∀ site : Site, site.flushes → faults site = none) ∧ ∃ e, fsyncDir faults t = .error e t) := by
  have hall : (∀ site : Site, site.flushes → faults site = none) ↔ faults .openObjectDir = none ∧
      faults .syncObjectDir = none ∧ faults .closeObjectDir = none := by
    constructor
    · intro h
      exact ⟨h _ rfl,h _ rfl,h _ rfl⟩
    · rintro ⟨ho,hs,hc⟩ site hsite
      cases site <;> first | exact ho | exact hs | exact hc | cases hsite
  rw [hall, fsyncDir]
  have hlast : trip faults .closeObjectDir t = match faults .closeObjectDir with
      | none => .ok () t
      | some f => .error f.error t := by
    rw [trip]
    cases faults .closeObjectDir <;> rfl
  rw [trip_bind, trip_bind, hlast]
  cases faults .openObjectDir <;> cases faults .syncObjectDir <;>
    cases faults .closeObjectDir <;> simp

theorem finish_ok (t : Disk) (old : String) (s : Disk)
    (hc : commit c faults srcVolume srcPath fi dstVolume dstPath t = .ok old s)
    (hflush : fsyncDir faults s = .ok () s) (hvol : srcVolume ≠ dstVolume) :
    ∃ t', renameDataFaulty c faults srcVolume srcPath fi dstVolume dstPath t = .ok old t' ∧
      look t' (metaPath dstVolume dstPath) = look s (metaPath dstVolume dstPath) := by
  have hapart : Apart (filePath srcVolume srcPath) (metaPath dstVolume dstPath) :=
    apart_cons hvol _ _
  have hne : metaPath dstVolume dstPath ≠ filePath srcVolume srcPath :=
    fun he => hapart.1 (he ▸ List.prefix_rfl)
  have hkeeps := keeps_bind (keeps_trip faults _ .removeStaged) fun _ _ _ _ =>
    keeps_removeDir _ (look s (metaPath dstVolume dstPath)) _ hne
  exact ⟨_,by rw [renameDataFaulty, bind_of_ok hc, bind_of_ok hflush]; rfl,hkeeps.kept s rfl⟩

end Commit

def failsAt (site : Site) : Faults := fun here =>
  if here = site then some ⟨.other,"Input/output error (os error 5)",[]⟩ else none

end Openlake.RenameFaults
