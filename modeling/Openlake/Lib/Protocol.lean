import Mathlib

/-!
# Reachable states and majorities

A transition system is a set of initial states and a step relation. An
invariant is proved once for a step and then holds in every reachable state.
Two majorities of one finite set of voters share a voter.
-/

set_option autoImplicit false

namespace Lib.Protocol

inductive Reachable {σ : Type*} (init : σ → Prop) (step : σ → σ → Prop) : σ → Prop
  | init (s : σ) (h : init s) : Reachable init step s
  | step (s t : σ) (hs : Reachable init step s) (h : step s t) : Reachable init step t

theorem Reachable.invariant {σ : Type*} {init : σ → Prop} {step : σ → σ → Prop} (P : σ → Prop)
    (h0 : ∀ s, init s → P s) (hstep : ∀ s t, P s → step s t → P t) (s : σ)
    (h : Reachable init step s) : P s := by
  induction h with
  | init s h => exact h0 s h
  | step s t _ h ih => exact hstep s t ih h

def majority (n : ℕ) : ℕ := n/2+1

section

variable {α : Type*} [Fintype α] [DecidableEq α] (s t : Finset α)
  (hs : majority (Fintype.card α) ≤ s.card) (ht : majority (Fintype.card α) ≤ t.card)

include hs ht

theorem majorities_overlap :
    2*majority (Fintype.card α) ≤ (s ∩ t).card+Fintype.card α := by
  have hcard := Finset.card_union_add_card_inter s t
  have hle : (s ∪ t).card ≤ Fintype.card α := Finset.card_le_univ _
  omega

theorem majorities_meet :
    ∃ p, p ∈ s ∧ p ∈ t := by
  have hover := majorities_overlap s t hs ht
  rw [majority] at hover
  obtain ⟨p,hp⟩ := Finset.card_pos.mp (show 0 < (s ∩ t).card by omega)
  exact ⟨p,Finset.mem_inter.mp hp⟩

end

end Lib.Protocol
