import Openlake.Lib.Chunks

/-!
# Reading ahead until a search succeeds

A reader of a chunked source keeps the bytes it has in a buffer and appends
whole chunks to it until a search of the buffer succeeds. A search that is not
undone by more input gives the same answer for every division of the input into
chunks: the answer it gives on the whole of it.
-/

set_option autoImplicit false

namespace Lib.Pulling
open Lib.Chunks

variable {ε α β : Type*}

inductive Pulled (ε α β : Type*) where
  | found (b : β) (carry : List α) (rest : Source ε α)
  | ended
  | failed (e : ε)

/-- Whole chunks are appended until the search finds something. -/
def pullUntil (look : List α → Option β) (carry : List α) (src : Source ε α) : Pulled ε α β :=
  match look carry with
  | some b => .found b carry src
  | none =>
    match src with
    | [] => .ended
    | .error e::_ => .failed e
    | .ok c::rest => if c.isEmpty then .ended else pullUntil look (carry ++ c) rest
termination_by structural src

/-- What the search finds stays where more is appended. -/
def Stable (look : List α → Option β) : Prop :=
  ∀ xs ys b, look xs = some b → look (xs ++ ys) = some b

variable {look : List α → Option β}

theorem Stable.none_left (h : Stable look) {xs ys : List α}
    (hnone : look (xs ++ ys) = none) : look xs = none := by
  cases hx : look xs with
  | none => rfl
  | some b => rw [h xs ys b hx] at hnone; cases hnone

/-- The search succeeds on a part of what is ahead as it does on the whole. -/
theorem pullUntil_found (hlook : Stable look) (carry : List α)
    (src : Source ε α) (b : β) (h : look (carry ++ contents src) = some b) :
    ∃ carry' rest, pullUntil look carry src = .found b carry' rest ∧ look carry' = some b ∧
      carry' ++ contents rest = carry ++ contents src ∧ ending rest = ending src := by
  induction src generalizing carry with
  | nil =>
    rw [contents, List.append_nil] at h
    exact ⟨carry,[],by rw [pullUntil.eq_def, h],h,rfl,rfl⟩
  | cons r src ih =>
    rw [pullUntil.eq_def]
    cases hc : look carry with
    | some b' =>
      obtain rfl : b = b' := Option.some.inj (h.symm.trans (hlook _ _ _ hc))
      exact ⟨carry,_,rfl,hc,rfl,rfl⟩
    | none =>
      cases r with
      | error e => rw [contents, List.append_nil, hc] at h; cases h
      | ok c =>
        by_cases hempty : c.isEmpty
        · rw [contents, if_pos hempty, List.append_nil, hc] at h
          cases h
        · simp only [contents, ending, if_neg hempty, ← List.append_assoc] at h ⊢
          exact ih (carry ++ c) h

theorem pullUntil_short (hlook : Stable look) (carry : List α)
    (src : Source ε α) (h : look (carry ++ contents src) = none) :
    pullUntil look carry src =
      match ending src with
      | none => .ended
      | some e => .failed e := by
  induction src generalizing carry with
  | nil => rw [pullUntil.eq_def, hlook.none_left h]; rfl
  | cons r src ih =>
    rw [pullUntil.eq_def, hlook.none_left h]
    cases r with
    | error e => rfl
    | ok c =>
      by_cases hempty : c.isEmpty
      · simp only [ending, if_pos hempty]
      · simp only [contents, ending, if_neg hempty, ← List.append_assoc] at h ⊢
        exact ih (carry ++ c) h

end Lib.Pulling
