import Mathlib.Data.List.Sort
import Mathlib.Order.Lattice

/-!
# Prefixes of sorted lists

What is among the first elements of a sorted list, which lists share their
first elements with it, and what stands after one of its elements.
-/

set_option autoImplicit false

namespace Lib.SortedLists

variable {α : Type} [LinearOrder α]

theorem mem_take_iff (l : List α) (hl : l.Pairwise (· < ·)) (n : ℕ) (a : α) :
    a ∈ l.take n ↔ a ∈ l ∧ (l.filter (· < a)).length < n := by
  induction l generalizing n with
  | nil => simp
  | cons x l ih =>
    rw [List.pairwise_cons] at hl
    cases n with
    | zero => simp
    | succ n =>
      rw [List.take_succ_cons, List.mem_cons, List.mem_cons, ih hl.2]
      by_cases hax : a = x
      · have hnone : l.filter (· < a) = [] := by
          rw [List.filter_eq_nil_iff]
          intro b hb
          simpa [hax] using (hl.1 b hb).le
        subst hax
        simp [hnone]
      · by_cases hal : a ∈ l
        · simp [hal, hax, hl.1 a hal]
        · simp [hax, hal]

/-- A list between a sorted list and its first elements has the same first
elements. -/
theorem take_eq_take (l u : List α) (hl : l.Pairwise (· < ·)) (hu : u.Pairwise (· < ·)) (n : ℕ)
    (hsub : ∀ a ∈ l, a ∈ u) (htake : ∀ a ∈ u.take n, a ∈ l) : l.take n = u.take n := by
  induction n generalizing l u with
  | zero => simp
  | succ n ih =>
    cases u with
    | nil =>
      have hnil : l = [] := List.eq_nil_iff_forall_not_mem.mpr (fun a ha => by simpa using hsub a ha)
      rw [hnil]
    | cons x u =>
      have hx : x ∈ l := htake x (by simp)
      cases l with
      | nil => cases hx
      | cons y l =>
        rw [List.pairwise_cons] at hl hu
        obtain rfl : y = x := by
          rcases List.mem_cons.mp hx with h | h
          · exact h.symm
          · rcases List.mem_cons.mp (hsub y (by simp)) with h' | h'
            · exact h'
            · exact absurd (hl.1 x h) (lt_asymm (hu.1 y h'))
        rw [List.take_succ_cons, List.take_succ_cons, ih l u hl.2 hu.2]
        · intro a ha
          rcases List.mem_cons.mp (hsub a (List.mem_cons_of_mem y ha)) with h | h
          · exact absurd (h ▸ hl.1 a ha) (lt_irrefl _)
          · exact h
        · intro a ha
          rcases List.mem_cons.mp (htake a (by simp [ha])) with h | h
          · exact absurd (h ▸ hu.1 a (List.mem_of_mem_take ha)) (lt_irrefl _)
          · exact h

theorem filter_above (l r : List α) (c : α) (h : (l ++ c::r).Pairwise (· < ·)) :
    (l ++ c::r).filter (c < ·) = r := by
  rw [List.pairwise_append, List.pairwise_cons] at h
  obtain ⟨-,⟨hr,-⟩,hlr⟩ := h
  have hnil : l.filter (c < ·) = [] := by
    rw [List.filter_eq_nil_iff]
    intro a ha
    simpa using (hlr a ha c List.mem_cons_self).le
  have hall : r.filter (c < ·) = r := by
    rw [List.filter_eq_self]
    intro a ha
    simpa using hr a ha
  rw [List.filter_append, hnil, List.filter_cons_of_neg (by simp), hall, List.nil_append]

theorem filter_below (l r : List α) (c : α) (h : (l ++ c::r).Pairwise (· < ·)) :
    (l ++ c::r).filter (· < c) = l := by
  rw [List.pairwise_append, List.pairwise_cons] at h
  obtain ⟨-,⟨hr,-⟩,hlr⟩ := h
  have hnil : r.filter (· < c) = [] := by
    rw [List.filter_eq_nil_iff]
    intro a ha
    simpa using (hr a ha).le
  have hall : l.filter (· < c) = l := by
    rw [List.filter_eq_self]
    intro a ha
    simpa using hlr a ha c List.mem_cons_self
  rw [List.filter_append, List.filter_cons_of_neg (by simp), hnil, hall, List.append_nil]

omit [LinearOrder α] in
theorem mem_take_filterMap {β : Type} (f : α → Option β) (l r : List α) (a : α) (b : β)
    (hb : f a = some b) (m : ℕ) (hm : l.countP (fun a => (f a).isSome) < m) :
    b ∈ ((l ++ a::r).filterMap f).take m := by
  rw [List.filterMap_append, List.filterMap_cons_some hb]
  have hlen : (l.filterMap f).length < m := by rwa [List.length_filterMap_eq_countP]
  obtain ⟨n,rfl⟩ : ∃ n, m = (l.filterMap f).length+(n+1) :=
    ⟨m-(l.filterMap f).length-1,by omega⟩
  rw [List.take_length_add_append, List.take_succ_cons]
  exact List.mem_append_right _ List.mem_cons_self

omit [LinearOrder α] in
/-- Two results for each element agree on their first `m` values when they agree
on every element with fewer than `m` values before it. -/
theorem take_filterMap_eq {β : Type} (f g : α → Option β) (listed : α → Prop)
    [DecidablePred listed] (l : List α) (m : ℕ)
    (h : ∀ pre a post, l = pre ++ a::post → pre.countP listed < m →
      f a = g a ∧ ((f a).isSome ↔ listed a)) :
    (l.filterMap f).take m = (l.filterMap g).take m := by
  induction l generalizing m with
  | nil => rfl
  | cons a l ih =>
    cases m with
    | zero => simp
    | succ m =>
      obtain ⟨hfg,hlisted⟩ := h [] a l rfl (by simp)
      cases hfa : f a with
      | none =>
        have hnot : ¬listed a := by simp [← hlisted, hfa]
        rw [List.filterMap_cons_none hfa, List.filterMap_cons_none (hfg ▸ hfa)]
        apply ih
        intro pre b post hsplit hcount
        apply h (a::pre) b post (by rw [hsplit, List.cons_append])
        rwa [List.countP_cons_of_neg (by simpa using hnot)]
      | some b =>
        have hyes : listed a := by simp [← hlisted, hfa]
        rw [List.filterMap_cons_some hfa, List.filterMap_cons_some (hfg ▸ hfa),
          List.take_succ_cons, List.take_succ_cons, ih]
        intro pre c post hsplit hcount
        apply h (a::pre) c post (by rw [hsplit, List.cons_append])
        rw [List.countP_cons_of_pos (by simpa using hyes)]
        omega

end Lib.SortedLists
