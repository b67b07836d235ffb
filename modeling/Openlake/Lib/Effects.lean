import Mathlib

/-!
# Effects that survive an error

A computation is a function on the state that returns a value or an error,
and in both cases the state it leaves behind. A sequence that succeeds is a
success of each of its steps, and what every step keeps, the sequence keeps
whatever its outcome.
-/

set_option autoImplicit false

namespace Lib.Effects

variable {ε σ α β : Type}

def value : EStateM.Result ε σ α → Except ε α
  | .ok a _ => .ok a
  | .error e _ => .error e

def left : EStateM.Result ε σ α → σ
  | .ok _ s => s
  | .error _ s => s

def lift (x : Except ε α) : EStateM ε σ α := fun s =>
  match x with
  | .ok a => .ok a s
  | .error e => .error e s

/-- Reads the state. -/
def probe (f : σ → Except ε α) : EStateM ε σ α := fun s => lift (f s) s

/-- Replaces the state, or leaves it as it is and fails. -/
def change (f : σ → Except ε σ) : EStateM ε σ Unit := fun s =>
  match f s with
  | .ok t => .ok () t
  | .error e => .error e s

/-- Goes on whatever the outcome. -/
def ignore (x : EStateM ε σ α) : EStateM ε σ Unit := fun s => .ok () (left (x s))

/-- Hands the outcome on as a value. -/
def outcome (x : EStateM ε σ α) : EStateM ε σ (Except ε α) := fun s =>
  .ok (value (x s)) (left (x s))

theorem run_bind_eq_ok (x : EStateM ε σ α) (f : α → EStateM ε σ β) (s s' : σ) (b : β) :
    (x >>= f) s = .ok b s' ↔ ∃ a t, x s = .ok a t ∧ f a t = .ok b s' := by
  show EStateM.bind x f s = _ ↔ _
  rw [EStateM.bind]
  cases x s <;> simp

variable {x : EStateM ε σ α} {s t : σ} {a : α}

theorem bind_of_ok (h : x s = .ok a t)
    (f : α → EStateM ε σ β) : (x >>= f) s = f a t := by
  show EStateM.bind x f s = _
  rw [EStateM.bind, h]

variable {e : ε}

theorem bind_of_error (h : x s = .error e t)
    (f : α → EStateM ε σ β) : (x >>= f) s = .error e t := by
  show EStateM.bind x f s = _
  rw [EStateM.bind, h]

theorem eq_ok_left {r : EStateM.Result ε σ α} (h : value r = .ok a) :
    r = .ok a (left r) := by
  cases r with
  | ok b s => cases h; rfl
  | error e s => cases h

theorem pure_eq_ok (a b : α) (s s' : σ) :
    (pure a : EStateM ε σ α) s = .ok b s' ↔ a = b ∧ s = s' := by
  show EStateM.Result.ok a s = _ ↔ _
  simp

theorem lift_eq_ok (x : Except ε α) (s s' : σ) (a : α) :
    lift x s = .ok a s' ↔ x = .ok a ∧ s = s' := by
  cases x <;> simp [lift]

theorem probe_eq_ok (f : σ → Except ε α) (s s' : σ) (a : α) :
    probe f s = .ok a s' ↔ f s = .ok a ∧ s = s' := lift_eq_ok (f s) s s' a

theorem change_eq_ok (f : σ → Except ε σ) (s s' : σ) (u : Unit) :
    change f s = .ok u s' ↔ f s = .ok s' := by
  rw [change]
  cases f s <;> simp

theorem change_error {f : σ → Except ε σ} (h : change f s = .error e t) :
    t = s := by
  rw [change] at h
  cases hf : f s with
  | ok u => rw [hf] at h; cases h
  | error e' => rw [hf] at h; cases h; rfl

theorem ignore_eq_ok (x : EStateM ε σ α) (s s' : σ) (u : Unit) :
    ignore x s = .ok u s' ↔ left (x s) = s' := by
  simp [ignore]

/-- The state left behind has the property again, also after an error. -/
structure Keeps (I : σ → Prop) (x : EStateM ε σ α) : Prop where
  kept : ∀ s, I s → I (left (x s))

section Keeping

variable {I : σ → Prop} {x : EStateM ε σ α}

theorem keeps_bind {f : α → EStateM ε σ β} (hx : Keeps I x)
    (hf : ∀ a s t, x s = .ok a t → Keeps I (f a)) : Keeps I (x >>= f) := by
  constructor
  intro s hs
  have hleft := hx.kept s hs
  cases h : x s with
  | ok a t =>
    rw [h] at hleft
    rw [bind_of_ok h]
    exact (hf a s t h).kept t hleft
  | error e t =>
    rw [h] at hleft
    rw [bind_of_error h]
    exact hleft

theorem keeps_pure (a : α) : Keeps I (pure a : EStateM ε σ α) := ⟨fun _ hs => hs⟩

theorem keeps_lift (x : Except ε α) : Keeps I (lift x) := by
  constructor
  intro s hs
  cases x <;> exact hs

theorem keeps_probe (f : σ → Except ε α) : Keeps I (probe f) :=
  ⟨fun s hs => (keeps_lift (f s)).kept s hs⟩

theorem keeps_change {f : σ → Except ε σ} (h : ∀ s t, I s → f s = .ok t → I t) :
    Keeps I (change f) := by
  constructor
  intro s hs
  rw [change]
  cases hf : f s with
  | ok t => exact h s t hs hf
  | error e => exact hs

theorem keeps_ignore (h : Keeps I x) : Keeps I (ignore x) := ⟨h.kept⟩

end Keeping

end Lib.Effects
