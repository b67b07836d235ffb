import Mathlib

/-!
# Computations that may fail

What a sequence of computations with a result or an error says when it has a
result.
-/

set_option autoImplicit false

namespace Lib.Outcomes

variable {ε α β : Type} {f : α → Except ε β} {x : Except ε α} {b : β}

theorem bind_eq_ok :
    (x >>= f) = .ok b ↔ ∃ a, x = .ok a ∧ f a = .ok b := by
  cases x <;> simp [bind, Except.bind]

theorem unit_bind_eq_ok {x : Except ε Unit} {f : Unit → Except ε β} :
    (x >>= f) = .ok b ↔ x = .ok () ∧ f () = .ok b := by
  rw [bind_eq_ok]
  exact ⟨fun ⟨_,h⟩ => h,fun h => ⟨_,h⟩⟩

theorem mapError_eq_ok {ε' : Type} {f : ε → ε'} {a : α} :
    x.mapError f = .ok a ↔ x = .ok a := by
  cases x <;> simp [Except.mapError]

variable {xs : List α} {ys : List β}

theorem mapM_ok_mem (h : xs.mapM f = .ok ys) (a : α)
    (ha : a ∈ xs) : ∃ b, f a = .ok b := by
  induction xs generalizing ys with
  | nil => cases ha
  | cons x xs ih =>
    rw [List.mapM_cons, bind_eq_ok] at h
    obtain ⟨b,hx,h⟩ := h
    obtain ⟨rest,hrest,-⟩ := bind_eq_ok.mp h
    rcases List.mem_cons.mp ha with rfl | ha
    · exact ⟨b,hx⟩
    · exact ih hrest ha

theorem mem_of_mapM {f : α → Option β} (h : xs.mapM f = some ys)
    : b ∈ ys ↔ ∃ a ∈ xs, f a = some b := by
  induction xs generalizing ys with
  | nil =>
    obtain rfl : [] = ys := by simpa using h
    simp
  | cons x xs ih =>
    rw [List.mapM_cons] at h
    obtain ⟨y,hy,h⟩ := Option.bind_eq_some_iff.mp h
    obtain ⟨rest,hrest,h⟩ := Option.bind_eq_some_iff.mp h
    obtain rfl : y::rest = ys := Option.some.inj h
    simp [ih hrest, hy, eq_comm]

theorem exists_mapM_iff {f : α → Option β} :
    (∃ ys, xs.mapM f = some ys) ↔ ∀ a ∈ xs, ∃ b, f a = some b := by
  induction xs with
  | nil => simp
  | cons x xs ih =>
    rw [List.forall_mem_cons, ← ih, List.mapM_cons]
    constructor
    · rintro ⟨ys,h⟩
      obtain ⟨y,hy,h⟩ := Option.bind_eq_some_iff.mp h
      obtain ⟨rest,hrest,-⟩ := Option.bind_eq_some_iff.mp h
      exact ⟨⟨y,hy⟩,rest,hrest⟩
    · rintro ⟨⟨y,hy⟩,rest,hrest⟩
      exact ⟨y::rest,by rw [hy, hrest]; rfl⟩

end Lib.Outcomes
