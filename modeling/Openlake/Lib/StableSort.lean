import Mathlib

/-!
# Stable sorting

Elements that are all related to each other keep their order. Sorting a list
with one more element at its end: the new element comes first exactly when
nothing before it is related to it.
-/

set_option autoImplicit false

namespace Lib.StableSort

variable {α : Type} (r : α → α → Prop) [DecidableRel r]

theorem filter_orderedInsert (p : α → Bool) (hp : ∀ a b, p a = true → p b = true → r a b) (a : α)
    (l : List α) : (l.orderedInsert r a).filter p = (a::l).filter p := by
  induction l with
  | nil => rfl
  | cons b l ih =>
    rw [List.orderedInsert_cons]
    split_ifs with hab
    · rfl
    · rw [List.filter_cons, ih]
      cases ha : p a <;> cases hb : p b <;> simp [ha, hb]
      exact absurd (hp a b ha hb) hab

theorem filter_insertionSort (p : α → Bool) (hp : ∀ a b, p a = true → p b = true → r a b)
    (l : List α) : (l.insertionSort r).filter p = l.filter p := by
  induction l with
  | nil => rfl
  | cons a l ih =>
    rw [List.insertionSort_cons, filter_orderedInsert r p hp, List.filter_cons, List.filter_cons, ih]

theorem head_orderedInsert (a : α) (l : List α) :
    (l.orderedInsert r a).head? = some (l.head?.elim a (fun b => if r a b then a else b)) := by
  cases l with
  | nil => rfl
  | cons b l =>
    rw [List.orderedInsert_cons]
    by_cases h : r a b <;> simp [h]

theorem head_sort_of_last (l : List α) (x : α) (h : ∀ a ∈ l, ¬r a x) :
    ((l ++ [x]).insertionSort r).head? = some x := by
  induction l with
  | nil => rfl
  | cons a l ih =>
    have hrest := ih (fun b hb => h b (by simp [hb]))
    rw [List.cons_append, List.insertionSort_cons, head_orderedInsert, hrest]
    simp [h a (by simp)]

theorem head_sort_of_earlier (l : List α) (x : α) (h : ∃ a ∈ l, r a x) :
    ∃ y ∈ l, ((l ++ [x]).insertionSort r).head? = some y := by
  induction l with
  | nil => simp at h
  | cons b l ih =>
    rw [List.cons_append, List.insertionSort_cons, head_orderedInsert]
    cases hs : ((l ++ [x]).insertionSort r).head? with
    | none => exact ⟨b,by simp,rfl⟩
    | some z =>
      have hz : z ∈ l ∨ z = x := by
        simpa using (List.mem_insertionSort r).mp (List.mem_of_head? hs)
      rcases hz with hz | rfl
      · by_cases hbz : r b z
        · exact ⟨b,by simp,by simp [hbz]⟩
        · exact ⟨z,by simp [hz],by simp [hbz]⟩
      · -- the new element leads the rest, so nothing there was related to it
        obtain ⟨a,ha,hax⟩ := h
        rcases List.mem_cons.mp ha with rfl | ha
        · exact ⟨a,by simp,by simp [hax]⟩
        · obtain ⟨y,hy,hhead⟩ := ih ⟨a,ha,hax⟩
          rw [hs] at hhead
          obtain rfl := Option.some.inj hhead
          by_cases hbz : r b z
          · exact ⟨b,by simp,by simp [hbz]⟩
          · exact ⟨z,by simp [hy],by simp [hbz]⟩

end Lib.StableSort
