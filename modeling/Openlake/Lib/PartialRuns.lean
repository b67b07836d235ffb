import Mathlib

/-!
# Runs of actions that may not return

`Each` says that every action of a run meets a condition in the state it is taken
in. Where the condition of an action is what its step needs to keep a bound, a run
keeps the bound in every state it reaches exactly if each of its actions meets the
condition.
-/

set_option autoImplicit false

namespace Lib.PartialRuns

variable {σ α : Type*} (step : σ → α → Option σ)

def run (s : σ) (actions : List α) : Option σ := actions.foldlM step s

def Each (ok : σ → α → Prop) : σ → List α → Prop
  | _,[] => True
  | s,a::actions => ok s a ∧ ∀ t, step s a = some t → Each ok t actions

variable {step}

variable {a : α}

theorem run_cons {s t : σ} (h : step s a = some t) (actions : List α) :
    run step s (a::actions) = run step t actions := by
  rw [run, List.foldlM_cons, h]
  rfl

variable {actions : List α} {s u : σ}

theorem run_cons_eq_some
    (h : run step s (a::actions) = some u) :
    ∃ t, step s a = some t ∧ run step t actions = some u := by
  rw [run, List.foldlM_cons] at h
  exact Option.bind_eq_some_iff.mp h

theorem bound_iff_each {inv bound : σ → Prop} {ok : σ → α → Prop}
    (hinv : ∀ s a t, inv s → step s a = some t → inv t)
    (hstep : ∀ s a t, inv s → bound s → step s a = some t → (bound t ↔ ok s a))
    (hs : inv s) (hb : bound s) (hrun : run step s actions = some u) :
    (∀ k t, run step s (actions.take k) = some t → bound t) ↔ Each step ok s actions := by
  induction actions generalizing s with
  | nil =>
    refine iff_of_true (fun k t ht => ?_) trivial
    rw [List.take_nil] at ht
    exact Option.some.inj ht ▸ hb
  | cons a actions ih =>
    obtain ⟨t,ht,hrest⟩ := run_cons_eq_some hrun
    have hone : (bound t ↔ ok s a) := hstep s a t hs hb ht
    constructor
    · intro h
      have hbt : bound t := h 1 t (by rw [List.take_succ_cons, run_cons ht]; rfl)
      refine ⟨hone.mp hbt,fun t' ht' => ?_⟩
      obtain rfl : t = t' := Option.some.inj (ht.symm.trans ht')
      refine (ih (hinv s a t hs ht) hbt hrest).mp fun k v hv => h (k+1) v ?_
      rwa [List.take_succ_cons, run_cons ht]
    · rintro ⟨hok,heach⟩ k v hv
      cases k with
      | zero => exact Option.some.inj hv ▸ hb
      | succ k =>
        rw [List.take_succ_cons, run_cons ht] at hv
        exact (ih (hinv s a t hs ht) (hone.mpr hok) hrest).mpr (heach t ht) k v hv

end Lib.PartialRuns
