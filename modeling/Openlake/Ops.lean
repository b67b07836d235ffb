import Openlake.Consensus
import Openlake.Lib.FanOut
import Openlake.Promote

/-!
# Operations as programs on the disks of a set

An engine operation asks all disks of its set at once and goes on when all have
answered. Written as a program it can run alone or between the calls of other
operations; alone, the promotion is the one of `Promote`.
-/

set_option autoImplicit false

namespace Openlake.Ops
open Openlake.Types Consensus XlMeta LocalFs Promote Lib.Effects Lib.FanOut Lib.Tally

abbrev Op (n : ℕ) := Prog n String Disk StorageError

def objLockKey (bucket key : String) : String := "obj:" ++ bucket ++ "/" ++ key

def partLockKey (bucket key uploadId : String) (partNumber : UInt32) : String :=
  "part:" ++ bucket ++ "/" ++ key ++ "/" ++ uploadId ++ "/" ++ toString partNumber

/-- The commonest error, the later one of two that are equally common. -/
def modalError (errors : List IoError) : IoError :=
  match maxByKey (fun e => e.2.1) (tally errorTag firstStep errors []) with
  | some (_,_,e) => e
  | none => .invalidArgument "no results"

def requireQuorum {α : Type} (results : List (Except IoError α)) (quorum : ℕ)
    (benign : IoError → Bool) : Except IoError Unit :=
  let errors := (results.filterMap failureOf).filter (fun e => !benign e)
  if quorum ≤ results.length-errors.length then .ok () else .error (modalError errors)

variable {n : ℕ} {α : Type}

def onDisks (faults : Fin n → Option IoError) (call : Fin n → Fs α) :
    Op n (Fin n → Except IoError α) :=
  Prog.ask (fun i => Task.ask (attempt (faults i) (call i)))

/-- Calls whose outcome does not matter. -/
def sweep (tasks : Fin n → Task Disk Unit) : Op n Unit := do
  let _ ← Prog.ask tasks
  return ()

def cleanupOp (srcVolume srcPath : String) (faults : Fin n → Option IoError) : Op n Unit :=
  sweep (fun i => Task.before (attempt (faults i) (delete srcVolume srcPath true)) (.done ()))

def undoTask (bucket key : String) (fi : FileInfo) : Except IoError String → Task Disk Unit
  | .ok _ => Task.before (deleteVersion bucket key fi) (.done ())
  | .error _ => .done ()

def staleTask (bucket key : String) (fi : FileInfo) : Except IoError String → Task Disk Unit
  | .ok old =>
    if old ≠ "" ∧ old ≠ fi.dataDir then
      Task.before (delete bucket (key ++ "/" ++ old) true) (.done ())
    else .done ()
  | .error _ => .done ()

def promoteOp (c : MetaCodec) (faults : Fin n → Option IoError) (srcVolume srcPath : String)
    (fis : Fin n → FileInfo) (bucket key : String) (quorum : ℕ) : Op n Unit := do
  let results ← onDisks faults (fun i => renameData c srcVolume srcPath (fis i) bucket key)
  let failures := List.ofFn (fun i => failureOf (results i))
  if failures.countP Option.isNone < quorum then
    sweep (fun i => undoTask bucket key (fis i) (results i))
    cleanupOp srcVolume srcPath (fun _ => none)
    Prog.ofExcept (.error (mapBucketOrIo bucket
      ((failures.findSome? id).getD (.invalidArgument "no quorum"))))
  else
    sweep (fun i => staleTask bucket key (fis i) (results i))
    cleanupOp srcVolume srcPath (fun _ => none)

theorem run_onDisks (faults : Fin n → Option IoError) (call : Fin n → Fs α) (disks : Disks n) :
    (onDisks faults call).run disks =
      .ok (fun i => value (attempt (faults i) (call i) (disks i)))
        (fun i => left (attempt (faults i) (call i) (disks i))) := rfl

theorem run_sweep (tasks : Fin n → Task Disk Unit) (disks : Disks n) :
    (sweep tasks).run disks = .ok () (fun i => ((tasks i).run (disks i)).2) := rfl

theorem run_cleanupOp (srcVolume srcPath : String) (disks : Disks n) :
    (cleanupOp srcVolume srcPath (fun _ => none)).run disks =
      .ok () (cleanupSrc srcVolume srcPath disks) := rfl

theorem run_undoTask (bucket key : String) (fi : FileInfo)
    (r : EStateM.Result IoError Disk String) :
    ((undoTask bucket key fi (value r)).run (left r)).2 = undoPromote bucket key fi r := by
  cases r <;> rfl

theorem run_staleTask (bucket key : String) (fi : FileInfo)
    (r : EStateM.Result IoError Disk String) :
    ((staleTask bucket key fi (value r)).run (left r)).2 = dropStale bucket key fi r := by
  cases r with
  | ok old t =>
    rw [value, staleTask, dropStale, left]
    split_ifs <;> rfl
  | error e t => rfl

/-- Without other operations, promoting is what `promoteVersions` does. -/
theorem run_promoteOp (c : MetaCodec) (faults : Fin n → Option IoError)
    (srcVolume srcPath : String) (fis : Fin n → FileInfo) (bucket key : String) (quorum : ℕ) :
    (promoteOp c faults srcVolume srcPath fis bucket key quorum).run =
      promoteVersions c faults srcVolume srcPath fis bucket key quorum := by
  funext disks
  rw [promoteOp, Prog.run_bind, bind_of_ok (run_onDisks _ _ disks), promoteVersions]
  simp only
  split_ifs with hq
  · rw [Prog.run_bind, bind_of_ok (run_sweep _ _), Prog.run_bind, bind_of_ok (run_cleanupOp _ _ _)]
    simp only [run_undoTask]
    rfl
  · rw [Prog.run_bind, bind_of_ok (run_sweep _ _), run_cleanupOp]
    simp only [run_staleTask]

end Openlake.Ops
