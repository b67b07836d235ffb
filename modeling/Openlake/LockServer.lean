import Mathlib

/-!
# The lock table of one node

One entry per resource, with the holder's uid and the time of its last
refresh. An entry is live while it is younger than the validity window. The
count that a sweep reports is not used by any caller and is left out.
-/

set_option autoImplicit false

namespace Openlake.LockServer

structure LockEntry where
  uid : String
  lastRefresh : ℕ
  deriving DecidableEq, Repr

abbrev Locks := String → Option LockEntry

def stale (validity now : ℕ) (e : LockEntry) : Prop := validity ≤ now-e.lastRefresh

instance (validity now : ℕ) (e : LockEntry) : Decidable (stale validity now e) :=
  inferInstanceAs (Decidable (_ ≤ _))

def acquire (validity now : ℕ) (locks : Locks) (resource uid : String) : Bool × Locks :=
  let granted := (true,Function.update locks resource (some ⟨uid,now⟩))
  match locks resource with
  | some e => if stale validity now e then granted else (false,locks)
  | none => granted

def refresh (now : ℕ) (locks : Locks) (resource uid : String) : Bool × Locks :=
  match locks resource with
  | some e =>
    if e.uid = uid then (true,Function.update locks resource (some ⟨uid,now⟩)) else (false,locks)
  | none => (false,locks)

def release (locks : Locks) (resource uid : String) : Locks :=
  match locks resource with
  | some e => if e.uid = uid then Function.update locks resource none else locks
  | none => locks

def expireOld (validity now : ℕ) (locks : Locks) : Locks :=
  fun r => (locks r).bind (fun e => if stale validity now e then none else some e)

def Holds (locks : Locks) (resource uid : String) : Prop :=
  ∃ e, locks resource = some e ∧ e.uid = uid

theorem holds_unique (locks : Locks) (resource u v : String) (hu : Holds locks resource u)
    (hv : Holds locks resource v) : u = v := by
  obtain ⟨e,he,rfl⟩ := hu
  obtain ⟨e',he',rfl⟩ := hv
  rw [he] at he'
  rw [Option.some.inj he']

theorem acquire_cases (validity now : ℕ) (locks : Locks) (resource uid : String) :
    (acquire validity now locks resource uid = (false,locks)) ∨
    (acquire validity now locks resource uid =
        (true,Function.update locks resource (some ⟨uid,now⟩)) ∧
      ∀ e, locks resource = some e → stale validity now e) := by
  rw [acquire]
  cases h : locks resource with
  | none => simp
  | some e => by_cases hs : stale validity now e <;> simp [hs]

theorem refresh_cases (now : ℕ) (locks : Locks) (resource uid : String) :
    (refresh now locks resource uid = (false,locks) ∧ ¬Holds locks resource uid) ∨
    (refresh now locks resource uid =
        (true,Function.update locks resource (some ⟨uid,now⟩)) ∧ Holds locks resource uid) := by
  rw [refresh]
  cases h : locks resource with
  | none => simp [Holds, h]
  | some e => by_cases hu : e.uid = uid <;> simp [Holds, h, hu]

theorem release_cases (locks : Locks) (resource uid : String) :
    release locks resource uid = locks ∨
    (release locks resource uid = Function.update locks resource none ∧
      Holds locks resource uid) := by
  rw [release]
  cases h : locks resource with
  | none => simp
  | some e => by_cases hu : e.uid = uid <;> simp [Holds, h, hu]

end Openlake.LockServer
