import Openlake.Ec
import Openlake.Lib.Effects
import Openlake.Lib.FileTree
import Openlake.Streams
import Openlake.XlMeta

/-!
# The local file system backend

A disk is a file tree and a call of the backend is a computation on it. A call
that fails leaves behind what it did before the failure. Moving to the trash
and purging is removal of the subtree. An atomic write through a temporary
file shows either the old or the new file, so it is a plain write here, and
flushing is left out.

A key is split at its slashes and empty pieces are dropped. The pieces are names:
the calls below never meet one that the file system would resolve, such as a
parent directory.
-/

set_option autoImplicit false

namespace Openlake.LocalFs
open Openlake.Types XlMeta Streams Ec Lib.FileTree Lib.Effects

abbrev Disk := Node Bytes

abbrev Fs := EStateM IoError Disk

def metaFilename : String := "xl.meta"

def metaBackupFilename : String := "xl.meta.bkp"

def stagingVol : String := ".openlake.staging"

def multipartVol : String := ".openlake.multipart"

def systemBucket : String := ".openlake.sys"

def isSystemVol (volume : String) : Bool :=
  volume = stagingVol || volume = multipartVol || volume = systemBucket

def flush (seg : List Char) : List String := if seg = [] then [] else [String.ofList seg]

def splitSegments (seg : List Char) : List Char → List String
  | [] => flush seg
  | c::cs => if c = '/' then flush seg ++ splitSegments [] cs else splitSegments (seg ++ [c]) cs

def segments (path : String) : List String := splitSegments [] path.toList

def filePath (volume path : String) : Path := volume::segments path

def childPath (dir name : String) : String := if dir = "" then name else dir ++ "/" ++ name

def metaPath (volume path : String) : Path := filePath volume path ++ [metaFilename]

def osError : Errno → IoError
  | .notFound => .io .notFound "No such file or directory (os error 2)"
  | .alreadyExists => .io .alreadyExists "File exists (os error 17)"
  | .notADirectory => .io .notADirectory "Not a directory (os error 20)"
  | .isADirectory => .io .isADirectory "Is a directory (os error 21)"
  | .invalidInput => .io .invalidInput "Invalid argument (os error 22)"
  | .directoryNotEmpty => .io .directoryNotEmpty "Directory not empty (os error 39)"

def fileError (volume path : String) : Errno → IoError
  | .notFound => .fileNotFound volume path
  | e => osError e

def mapOpenErr (volume path : String) : Errno → IoError
  | .notFound => .fileNotFound volume path
  | .alreadyExists => .fileAlreadyExists volume path
  | e => osError e

def volumeError (volume : String) : Errno → IoError
  | .notFound => .volumeNotFound volume
  | e => osError e

def createDirs (p : Path) : Fs Unit := change (fun t => (createDirAll t p).mapError osError)

def checkVol (volume : String) (t : Disk) : Except IoError Unit :=
  match stat t [volume] with
  | .ok (.dir _) => .ok ()
  | .ok (.file _) => .error (.volumeNotFound volume)
  | .error e => .error (volumeError volume e)

def requireVol (volume : String) : Fs Unit :=
  if isSystemVol volume then createDirs [volume] else probe (checkVol volume)

def trash (t : Disk) (target : Path) : Except Errno Disk :=
  match stat t target with
  | .error e => .error e
  | .ok _ => if target = [] then .error .invalidInput else .ok (prune t target)

def moveToTrash (target : Path) : Fs Unit := change (fun t => (trash t target).mapError osError)

def removeNode (recursive : Bool) (p : Path) : Node Bytes → Fs Unit
  | .dir _ =>
    if recursive then moveToTrash p else change (fun t => (removeDir t p).mapError osError)
  | .file _ => change (fun t => (removeFile t p).mapError osError)

def delete (volume path : String) (recursive : Bool) : Fs Unit := do
  requireVol volume
  let p := filePath volume path
  let node ← probe (fun t => (stat t p).mapError (fileError volume path))
  removeNode recursive p node

def overwrite (bytes : Bytes) (p : Path) : Fs Unit :=
  change (fun t => (writeFile bytes t p).mapError osError)

def writeMetadata (c : MetaCodec) (volume path : String) (fi : FileInfo) : Fs Unit := do
  requireVol volume
  let dir := filePath volume path
  createDirs dir
  let encoded ← lift (encodeVersions c [fi])
  overwrite encoded (dir ++ [metaFilename])

def located (volume path : String) : IoError → IoError
  | .corruptMetadata _ _ msg => .corruptMetadata volume path msg
  | e => e

/-- A lookup by id reports a corrupt file without its location. -/
def pickVersion (c : MetaCodec) (volume path : String) (bytes : Bytes) :
    Option String → Except IoError DecodedRecord
  | none => (decode c bytes).mapError (located volume path)
  | some id => do
    match ← findVersion c bytes id with
    | some r => .ok r
    | none => .error (.fileVersionNotFound volume path id)

def versionFrom (c : MetaCodec) (volume path : String) (bytes : Bytes) (versionId : Option String)
    (readData : Bool) : Except IoError FileInfo := do
  let record ← pickVersion c volume path bytes versionId
  let fi := fileInfoFromRecord record volume path
  return if readData then fi else { fi with data := none }

def readVersion (c : MetaCodec) (volume path : String) (versionId : Option String)
    (readData : Bool) : Fs FileInfo := do
  requireVol volume
  let bytes ← probe (fun t =>
    (Lib.FileTree.readFile t (metaPath volume path)).mapError (fileError volume path))
  lift (versionFrom c volume path bytes versionId readData)

def restoreBackup (p : Path) (t : Disk) : Except Errno Disk :=
  rename t (p ++ [metaBackupFilename]) (p ++ [metaFilename])

/-- The undo of a write: back to the backup, or, without one, without the
object. -/
def deleteVersion (volume path : String) (fi : FileInfo) : Fs Unit := fun t =>
  let p := filePath volume path
  match restoreBackup p t with
  | .error .notFound => delete volume path true t
  | .error e => .error (osError e) t
  | .ok t => if fi.dataDir = "" then .ok () t else ignore (moveToTrash (p ++ [fi.dataDir])) t

def priorVersions (c : MetaCodec) (volume path : String) (t : Disk) :
    Except IoError (Option Bytes × List DecodedRecord) :=
  match Lib.FileTree.readFile t (metaPath volume path) with
  | .ok raw => do
    let all ← (decodeAll c raw).mapError (located volume path)
    return (some raw,all)
  | .error .notFound => .ok (none,[])
  | .error e => .error (osError e)

def mergeVersions (fi : FileInfo) (volume path : String) (existing : List DecodedRecord) :
    List FileInfo :=
  List.insertionSort (fun a b : FileInfo => b.modTimeMs ≤ a.modTimeMs)
    ((existing.filter (fun r => r.versionId ≠ fi.versionId)).map
      (fun r => fileInfoFromRecord r volume path) ++ [fi])

def oldDataDir (fi : FileInfo) (existing : List DecodedRecord) : Option String :=
  ((existing.find? (fun r => r.versionId = fi.versionId)).map DecodedRecord.dataDir).filter
    (fun s => s ≠ "" ∧ s ≠ fi.dataDir)

def renameNode (src dst : Path) : Fs Unit := change (fun t => (rename t src dst).mapError osError)

def isDir (t : Disk) (p : Path) : Bool :=
  match stat t p with
  | .ok (.dir _) => true
  | _ => false

def moveDataDir (staged object : Path) (dataDir : String) : Fs Unit := fun t =>
  if dataDir ≠ "" ∧ isDir t (staged ++ [dataDir]) then
    (do createDirs object; renameNode (staged ++ [dataDir]) (object ++ [dataDir])) t
  else .ok () t

def writeBackup (object : Path) (priorSameVidExisted : Bool) : Option Bytes → Fs Unit
  | some raw =>
    if priorSameVidExisted then do
      createDirs object
      overwrite raw (object ++ [metaBackupFilename])
    else pure ()
  | none => pure ()

/-- Returns the replaced version's data dir. -/
def renameData (c : MetaCodec) (srcVolume srcPath : String) (fi : FileInfo)
    (dstVolume dstPath : String) : Fs String := do
  lift (refuse (isSystemVol srcVolume = false) (.invalidArgument
    ("rename_data: src_volume must be a system volume (got " ++ srcVolume ++ ")")))
  requireVol dstVolume
  let (preXlMetaRaw,existing) ← probe (priorVersions c dstVolume dstPath)
  let encoded ← lift (encodeVersions c (mergeVersions fi dstVolume dstPath existing))
  let staged := filePath srcVolume srcPath
  let object := filePath dstVolume dstPath
  createDirs staged
  overwrite encoded (staged ++ [metaFilename])
  moveDataDir staged object fi.dataDir
  writeBackup object (existing.any (fun r => r.versionId = fi.versionId)) preXlMetaRaw
  createDirs object
  renameNode (staged ++ [metaFilename]) (object ++ [metaFilename])
  ignore (change (fun t => (removeDir t staged).mapError osError))
  return (oldDataDir fi existing).getD ""

def writeFile (volume path : String) (bytes : Bytes) : Fs Unit := do
  requireVol volume
  let finalPath := filePath volume path
  createDirs finalPath.dropLast
  overwrite bytes finalPath

def readFile (volume path : String) : Fs (Option Bytes) := do
  requireVol volume
  probe (fun t =>
    match Lib.FileTree.readFile t (filePath volume path) with
    | .ok bytes => .ok (some bytes)
    | .error .notFound => .ok none
    | .error e => .error (osError e))

def makeDirAll (volume path : String) : Fs Unit := do
  requireVol volume
  createDirs (filePath volume path)

def renameFile (srcVolume srcPath dstVolume dstPath : String) : Fs Unit := do
  requireVol srcVolume
  requireVol dstVolume
  let dst := filePath dstVolume dstPath
  createDirs dst.dropLast
  change (fun t => (rename t (filePath srcVolume srcPath) dst).mapError
    (fileError srcVolume srcPath))

def createFileWriter (volume path : String) : Fs Unit := do
  requireVol volume
  let p := filePath volume path
  createDirs p.dropLast
  change (fun t => (Lib.FileTree.writeFile [] t p).mapError (mapOpenErr volume path))

/-- The sink shows what was written when it is finished. -/
def finishFile (volume path : String) (expected : ℕ) (written : Bytes) : Fs Unit := do
  lift (refuse (written.length ≠ expected) (.io .unexpectedEof ("create_file_writer: wrote " ++
    toString written.length ++ "/" ++ toString expected)))
  overwrite written (filePath volume path)

def streamChunkBytes : ℕ := 4194304

def pieces (k : ℕ) : ℕ → Bytes → List Bytes
  | 0,_ => []
  | m+1,xs => xs.take k::pieces k m (xs.drop k)

def fileStream (bytes : Bytes) (offset length : ℕ) : ByteSource :=
  let window := (bytes.drop offset).take length
  ropeByteStream (pieces streamChunkBytes (divCeil window.length streamChunkBytes) window)

def openFile (volume path : String) (offset length : ℕ) (t : Disk) : Except IoError ByteSource :=
  match stat t (filePath volume path) with
  | .ok (.file bytes) => .ok (fileStream bytes offset length)
  | .ok (.dir _) => .ok [.error (osError .isADirectory)]
  | .error e => .error (mapOpenErr volume path e)

def readFileStream (volume path : String) (offset length : ℕ) : Fs ByteSource := do
  requireVol volume
  probe (openFile volume path offset length)

/-- What a directory entry can be called. -/
structure FileName (s : String) : Prop where
  nonempty : s ≠ ""
  one : '/' ∉ s.toList
  not_dot : s ≠ "." ∧ s ≠ ".."

instance (s : String) : Decidable (FileName s) :=
  decidable_of_iff (s ≠ "" ∧ '/' ∉ s.toList ∧ s ≠ "." ∧ s ≠ "..")
    ⟨fun ⟨h1,h2,h3⟩ => ⟨h1,h2,h3⟩,fun ⟨h1,h2,h3⟩ => ⟨h1,h2,h3⟩⟩

theorem splitSegments_slash (seg a b : List Char) :
    splitSegments seg (a ++ '/'::b) = splitSegments seg a ++ splitSegments [] b := by
  induction a generalizing seg with
  | nil => simp [splitSegments]
  | cons x a ih =>
    rw [List.cons_append, splitSegments, splitSegments]
    split_ifs
    · rw [ih, List.append_assoc]
    · rw [ih]

theorem segments_slash (a b : String) :
    segments (a ++ "/" ++ b) = segments a ++ segments b := by
  rw [segments, segments, segments, String.toList_append, String.toList_append, List.append_assoc]
  exact splitSegments_slash [] a.toList b.toList

theorem splitSegments_of_no_slash (seg a : List Char) (h : '/' ∉ a) :
    splitSegments seg a = flush (seg ++ a) := by
  induction a generalizing seg with
  | nil => rw [splitSegments, List.append_nil]
  | cons x a ih =>
    rw [List.mem_cons, not_or] at h
    rw [splitSegments, if_neg (Ne.symm h.1), ih _ h.2, List.append_assoc, List.singleton_append]

theorem segments_name (s : String) (h : FileName s) : segments s = [s] := by
  have hne : s.toList ≠ [] := fun he => h.nonempty (String.toList_inj.mp he)
  rw [segments, splitSegments_of_no_slash [] s.toList h.one, List.nil_append, flush, if_neg hne,
    String.ofList_toList]

def keyOf (q : Path) : String := q.foldl childPath ""

theorem keyOf_snoc (q : Path) (x : String) : keyOf (q ++ [x]) = childPath (keyOf q) x := by
  rw [keyOf, List.foldl_append, List.foldl_cons, List.foldl_nil, keyOf]

theorem segments_childPath (dir x : String) (h : FileName x) :
    segments (childPath dir x) = segments dir ++ [x] := by
  rw [childPath]
  split_ifs with hdir
  · rw [hdir, segments_name x h]
    rfl
  · rw [segments_slash, segments_name x h]

theorem segments_keyOf (q : Path) (h : ∀ s ∈ q, FileName s) : segments (keyOf q) = q := by
  induction q using List.reverseRecOn with
  | nil => rfl
  | append_singleton q x ih =>
    rw [keyOf_snoc, segments_childPath _ x (h x (by simp)), ih (fun s hs => h s (by simp [hs]))]

theorem keyOf_ne (q : Path) (h : ∀ s ∈ q, FileName s) (hq : q ≠ []) : keyOf q ≠ "" := by
  intro he
  have hseg := segments_keyOf q h
  rw [he] at hseg
  exact hq hseg.symm

theorem keyOf_append (q r : Path) (hq : ∀ s ∈ q, FileName s) (hr : ∀ s ∈ r, FileName s)
    (hq0 : q ≠ []) (hr0 : r ≠ []) : keyOf (q ++ r) = keyOf q ++ "/" ++ keyOf r := by
  induction r using List.reverseRecOn with
  | nil => exact absurd rfl hr0
  | append_singleton r x ih =>
    have hr' : ∀ s ∈ r, FileName s := fun s hs => hr s (by simp [hs])
    have hqr : ∀ s ∈ q ++ r, FileName s := fun s hs => (List.mem_append.mp hs).elim (hq s) (hr' s)
    rw [← List.append_assoc, keyOf_snoc, keyOf_snoc, childPath, childPath,
      if_neg (keyOf_ne _ hqr (by simp [hq0]))]
    by_cases hr1 : r = []
    · subst hr1
      rw [List.append_nil, if_pos (by rfl)]
    · rw [if_neg (keyOf_ne r hr' hr1), ih hr' hr1]
      simp only [String.append_assoc]

structure PlainKey (k : String) : Prop where
  nonempty : k ≠ ""
  joined : keyOf (segments k) = k
  names : ∀ s ∈ segments k, FileName s

instance (k : String) : Decidable (PlainKey k) :=
  decidable_of_iff (k ≠ "" ∧ keyOf (segments k) = k ∧ ∀ s ∈ segments k, FileName s)
    ⟨fun ⟨h1,h2,h3⟩ => ⟨h1,h2,h3⟩,fun ⟨h1,h2,h3⟩ => ⟨h1,h2,h3⟩⟩

theorem plainKey_keyOf (q : Path) (h : ∀ s ∈ q, FileName s) (hq : q ≠ []) : PlainKey (keyOf q) := by
  have hseg := segments_keyOf q h
  exact ⟨keyOf_ne q h hq,by rw [hseg],by rwa [hseg]⟩

theorem PlainKey.segments_ne {k : String} (h : PlainKey k) : segments k ≠ [] := by
  intro hs
  apply h.nonempty
  rw [← h.joined, hs]
  rfl

theorem filePath_keyOf (volume : String) (q : Path) (h : ∀ s ∈ q, FileName s) :
    filePath volume (keyOf q) = volume::q := by
  rw [filePath, segments_keyOf q h]

theorem filePath_child (volume path name : String) (h : FileName name) :
    filePath volume (path ++ "/" ++ name) = filePath volume path ++ [name] := by
  rw [filePath, filePath, segments_slash, segments_name name h, List.cons_append]

theorem fileName_formatUuidHex (u : VersionIds.Uuid) : FileName (VersionIds.formatUuidHex u) := by
  have hne : ∀ s : String, s.toList.length ≠ 36 → VersionIds.formatUuidHex u ≠ s := fun s hs =>
    VersionIds.formatUuidHex_ne u s hs
  refine ⟨hne _ (by decide),fun hmem => ?_,hne _ (by decide),hne _ (by decide)⟩
  rw [VersionIds.formatUuidHex_toList] at hmem
  rcases VersionIds.mem_dashed _ _ hmem with hhex | hdash
  · obtain ⟨b,-,hb⟩ := List.mem_flatMap.mp hhex
    have hdigit : ∀ n < 16, VersionIds.hexDigit n ≠ '/' := by decide
    have hlt := b.toNat_lt
    simp only [VersionIds.hexByte, List.mem_cons, List.not_mem_nil, or_false] at hb
    rcases hb with hb | hb
    · exact hdigit _ (by omega) hb.symm
    · exact hdigit _ (by omega) hb.symm
  · exact absurd hdash (by decide)

end Openlake.LocalFs
