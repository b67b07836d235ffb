import Openlake.LocalFsEffects

/-!
# Promoting a staged object on all disks

Every disk promotes its record; with too few successes the disks that did
succeed are told to undo, and the staging directory is removed everywhere. A
fault is a disk whose promotion fails without effect.
-/

set_option autoImplicit false

namespace Openlake.Promote
open Openlake.Types XlMeta LocalFs Lib.Effects

abbrev Disks (n : ℕ) := Fin n → Disk

abbrev Engine (n : ℕ) := EStateM StorageError (Disks n)

def attempt {α : Type} (fault : Option IoError) (call : Fs α) : Fs α :=
  match fault with
  | none => call
  | some e => lift (.error e)

def mapBucketOrIo (bucket : String) : IoError → StorageError
  | .volumeNotFound _ => .bucketNotFound bucket
  | e => .io e

def failureOf {α : Type} : Except IoError α → Option IoError
  | .ok _ => none
  | .error e => some e

section Fan

variable {n : ℕ}

def cleanupSrc (srcVolume srcPath : String) (disks : Disks n) : Disks n :=
  fun i => left (delete srcVolume srcPath true (disks i))

def undoPromote (bucket key : String) (fi : FileInfo) : EStateM.Result IoError Disk String → Disk
  | .ok _ t => left (deleteVersion bucket key fi t)
  | .error _ t => t

def dropStale (bucket key : String) (fi : FileInfo) : EStateM.Result IoError Disk String → Disk
  | .ok old t =>
    if old ≠ "" ∧ old ≠ fi.dataDir then left (delete bucket (key ++ "/" ++ old) true t) else t
  | .error _ t => t

def promoteVersions (c : MetaCodec) (faults : Fin n → Option IoError) (srcVolume srcPath : String)
    (fis : Fin n → FileInfo) (bucket key : String) (quorum : ℕ) : Engine n Unit := fun disks =>
  let results := fun i =>
    attempt (faults i) (renameData c srcVolume srcPath (fis i) bucket key) (disks i)
  let failures := List.ofFn (fun i => failureOf (value (results i)))
  if failures.countP Option.isNone < quorum then
    .error (mapBucketOrIo bucket ((failures.findSome? id).getD (.invalidArgument "no quorum")))
      (cleanupSrc srcVolume srcPath (fun i => undoPromote bucket key (fis i) (results i)))
  else .ok () (cleanupSrc srcVolume srcPath (fun i => dropStale bucket key (fis i) (results i)))

end Fan

end Openlake.Promote
