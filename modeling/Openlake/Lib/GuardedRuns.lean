import Mathlib

/-!
# Runs under a condition on each step

A run is a list of actions. `Always` says that each action of a run meets a
condition in the state it is taken in, and what every such action keeps holds
after the run.
-/

set_option autoImplicit false

namespace Lib.GuardedRuns

variable {σ α : Type*} (next : σ → α → σ)

def after (s : σ) (actions : List α) : σ := actions.foldl next s

def Always (good : σ → α → Prop) : σ → List α → Prop
  | _,[] => True
  | s,a::actions => good s a ∧ Always good (next s a) actions

instance decidableAlways (good : σ → α → Prop) [∀ s a, Decidable (good s a)] :
    (s : σ) → (actions : List α) → Decidable (Always next good s actions)
  | _,[] => .isTrue trivial
  | s,a::actions =>
    have := decidableAlways good (next s a) actions
    inferInstanceAs (Decidable (good s a ∧ Always next good (next s a) actions))

theorem after_append (s : σ) (as bs : List α) :
    after next s (as ++ bs) = after next (after next s as) bs := List.foldl_append

variable {next}

variable {actions : List α} {s : σ}

theorem after_fixed (h : ∀ a ∈ actions, next s a = s) :
    after next s actions = s := by
  induction actions with
  | nil => rfl
  | cons a actions ih =>
    show after next (next s a) actions = s
    rw [h a List.mem_cons_self]
    exact ih fun b hb => h b (List.mem_cons_of_mem _ hb)

theorem Always.invariant {good : σ → α → Prop} (P : σ → Prop)
    (hstep : ∀ s a, P s → good s a → P (next s a))
    (hgood : Always next good s actions) (hs : P s) : P (after next s actions) := by
  induction actions generalizing s with
  | nil => exact hs
  | cons a actions ih => exact ih hgood.2 (hstep s a hs hgood.1)

theorem Always.imp {good safe : σ → α → Prop} (P : σ → Prop)
    (hstep : ∀ s a, P s → good s a → P (next s a)) (hsafe : ∀ s a, P s → good s a → safe s a)
    (hgood : Always next good s actions) (hs : P s) :
    Always next safe s actions := by
  induction actions generalizing s with
  | nil => trivial
  | cons a actions ih => exact ⟨hsafe s a hs hgood.1,ih hgood.2 (hstep s a hs hgood.1)⟩

theorem after_invariant (P : σ → Prop) (hstep : ∀ s a, P s → P (next s a)) (hs : P s)
    (actions : List α) : P (after next s actions) := by
  induction actions generalizing s with
  | nil => exact hs
  | cons a actions ih => exact ih (hstep s a hs)

end Lib.GuardedRuns
