import Openlake.Lib.Tally

/-!
# Grouping with positions and writing back

Items are pushed with their positions into the groups of a hash map, each group
is worked on by itself, and what comes out of it is written to the positions its
items came from.
-/

set_option autoImplicit false

namespace Lib.Grouping
open Lib.Tally

section Groups

variable {α κ : Type*} [DecidableEq κ]

def pushStep (o : Option (List α)) (a : α) : List α := o.getD [] ++ [a]

theorem foldl_pushStep (xs : List α) (o : Option (List α)) :
    xs.foldl (fun o a => some (pushStep o a)) o =
      if xs = [] then o else some (o.getD [] ++ xs) := by
  induction xs generalizing o with
  | nil => rfl
  | cons a as ih =>
    rw [List.foldl_cons, ih]
    cases as <;> simp [pushStep]

/-- A group holds the items with its key, in their order. -/
theorem mem_tally_push (key : α → κ) (xs : List α) (k : κ) (g : List α) :
    (k,g) ∈ tally key pushStep xs [] ↔ g = xs.filter (fun a => k = key a) ∧ g ≠ [] := by
  rw [mem_tally, foldl_pushStep]
  cases xs.filter (fun a => k = key a) with
  | nil => simp
  | cons a as =>
    simp only [reduceCtorEq, if_false, Option.getD_none, List.nil_append, Option.some.injEq]
    constructor
    · rintro rfl
      exact ⟨rfl,by simp⟩
    · exact fun h => h.1.symm

end Groups

section Buckets

variable {α β : Type*} (f : α → ℕ) (v : α → β)

def bucket (groups : List (List β)) (a : α) : List (List β) :=
  groups.modify (f a) (fun group => group ++ [v a])

theorem getElem?_foldl_bucket (xs : List α) (groups : List (List β)) (g : ℕ) :
    (xs.foldl (bucket f v) groups)[g]? =
      groups[g]?.map (fun group => group ++ (xs.filter (fun a => f a = g)).map v) := by
  induction xs generalizing groups with
  | nil => simp
  | cons a xs ih =>
    rw [List.foldl_cons, ih, bucket, List.getElem?_modify]
    by_cases ha : f a = g
    · simp [ha, Option.map_map, Function.comp_def]
    · simp [ha]

theorem foldl_bucket (xs : List α) (n : ℕ) :
    xs.foldl (bucket f v) (List.replicate n []) =
      (List.range n).map (fun g => (xs.filter (fun a => f a = g)).map v) := by
  apply List.ext_getElem?
  intro g
  rw [getElem?_foldl_bucket, List.getElem?_replicate, List.getElem?_map]
  by_cases hg : g < n
  · simp [hg]
  · simp [hg]

/-- The buckets hold what was put into them, each item once. -/
theorem flatMap_filter_perm (xs : List α) (n : ℕ) :
    ((List.range n).flatMap (fun g => xs.filter (fun a => f a = g))).Perm
      (xs.filter (fun a => f a < n)) := by
  induction n with
  | zero => simp
  | succ n ih =>
    rw [List.range_succ, List.flatMap_append, List.flatMap_singleton]
    refine (ih.append_right _).trans ?_
    have hsplit := List.filter_append_perm (fun a => decide (f a < n))
      (xs.filter (fun a => f a < n+1))
    rw [List.filter_filter, List.filter_filter] at hsplit
    refine .trans (.of_eq ?_) hsplit
    congr 2
    · funext a
      rw [← Bool.decide_and, decide_eq_decide]
      omega
    · funext a
      rw [← decide_not, ← Bool.decide_and, decide_eq_decide]
      omega

end Buckets

section Positions

variable {α : Type*}

/-- The items that are kept, by the positions at which they stood. -/
theorem getElem?_filter_iff (p : α → Bool) (xs : List α) (m : ℕ) (a : α) :
    (xs.filter p)[m]? = some a ↔
      ∃ i, xs[i]? = some a ∧ p a = true ∧ (xs.take i).countP p = m := by
  induction xs generalizing m with
  | nil => simp
  | cons x xs ih =>
    constructor
    · intro h
      by_cases hx : p x = true
      · rw [List.filter_cons_of_pos hx] at h
        cases m with
        | zero =>
          obtain rfl : x = a := by simpa using h
          exact ⟨0,rfl,hx,rfl⟩
        | succ m =>
          obtain ⟨i,hi,ha,hm⟩ := (ih m).mp (by simpa using h)
          exact ⟨i+1,by simpa using hi,ha,by rw [List.take_succ_cons, List.countP_cons_of_pos hx, hm]⟩
      · rw [List.filter_cons_of_neg hx] at h
        obtain ⟨i,hi,ha,hm⟩ := (ih m).mp h
        exact ⟨i+1,by simpa using hi,ha,by rw [List.take_succ_cons, List.countP_cons_of_neg hx, hm]⟩
    · rintro ⟨i,hi,ha,rfl⟩
      cases i with
      | zero =>
        obtain rfl : x = a := by simpa using hi
        simp [ha]
      | succ i =>
        have hrest := (ih _).mpr ⟨i,by simpa using hi,ha,rfl⟩
        by_cases hx : p x = true
        · rw [List.filter_cons_of_pos hx, List.take_succ_cons, List.countP_cons_of_pos hx,
            List.getElem?_cons_succ]
          exact hrest
        · rw [List.filter_cons_of_neg hx, List.take_succ_cons, List.countP_cons_of_neg hx]
          exact hrest

end Positions

section Writes

variable {β : Type*}

def write (out : List β) (w : ℕ × β) : List β := out.set w.1 w.2

theorem length_foldl_write (ws : List (ℕ × β)) (out : List β) :
    (ws.foldl write out).length = out.length := by
  induction ws generalizing out with
  | nil => rfl
  | cons w ws ih => rw [List.foldl_cons, ih, write, List.length_set]

theorem getElem?_foldl_write_of_notMem (ws : List (ℕ × β)) (out : List β) (i : ℕ)
    (h : ∀ w ∈ ws, w.1 ≠ i) : (ws.foldl write out)[i]? = out[i]? := by
  induction ws generalizing out with
  | nil => rfl
  | cons w ws ih =>
    rw [List.foldl_cons, ih _ fun w hw => h w (by simp [hw]), write,
      List.getElem?_set_ne (h w (by simp))]

/-- A position at which all writes agree holds what they wrote. -/
theorem getElem?_foldl_write (ws : List (ℕ × β)) (out : List β) {i : ℕ} {b : β}
    (hi : i < out.length) (hmem : (i,b) ∈ ws) (hsame : ∀ w ∈ ws, w.1 = i → w.2 = b) :
    (ws.foldl write out)[i]? = some b := by
  induction ws generalizing out with
  | nil => simp at hmem
  | cons w ws ih =>
    rw [List.foldl_cons]
    by_cases hrest : ∃ w' ∈ ws, w'.1 = i
    · obtain ⟨⟨j,b'⟩,hw',rfl⟩ := hrest
      obtain rfl : b' = b := hsame _ (by simp [hw']) rfl
      exact ih _ (by rwa [write, List.length_set]) hw' fun w hw => hsame w (by simp [hw])
    · push Not at hrest
      rw [getElem?_foldl_write_of_notMem ws _ i hrest]
      rcases List.mem_cons.mp hmem with rfl | hmem
      · rw [write, List.getElem?_set_self hi]
      · exact absurd rfl (hrest _ hmem)

end Writes

end Lib.Grouping
