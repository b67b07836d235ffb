import Openlake.Walk

/-!
# Byte order and path order

A listing is in the order of the keys, a walk in the order of the paths, and
the two differ: `a-b` comes before `a/b`, but the directory `a` before `a-b`.
They differ exactly where a key continues the path of a directory with a
character below the slash.
-/

set_option autoImplicit false

namespace Openlake.KeyOrder
open LocalFs Lib.FileTree

theorem prefix_of_between (z c w : List Char) (hz : ¬c < z) (hw : ¬z ++ w < c) : z <+: c := by
  induction z generalizing c with
  | nil => exact List.nil_prefix
  | cons x z ih =>
    cases c with
    | nil => exact absurd (List.nil_lt_cons x z) hz
    | cons y c =>
      rw [List.cons_append] at hw
      rw [List.cons_lt_cons_iff, not_or, not_and] at hz hw
      obtain rfl : x = y := le_antisymm (not_lt.mp hz.1) (not_lt.mp hw.1)
      exact List.cons_prefix_cons.mpr ⟨rfl,ih c (hz.2 rfl) (hw.2 rfl)⟩

theorem append_lt_append_iff (z u w : List Char) : z ++ u < z ++ w ↔ u < w := by
  induction z with
  | nil => rfl
  | cons x z ih => simp [ih]

theorem not_append_lt (z u : List Char) : ¬z ++ u < z := by
  intro h
  rw [← List.append_nil z, List.append_assoc, append_lt_append_iff] at h
  exact List.not_lt_nil _ h

/-- The path of `c` continues a directory of `k` with a character below the
slash. -/
def Clash (c : String) (p : Path) : Prop :=
  ∃ a, a <+: p ∧ a ≠ [] ∧ a ≠ p ∧
    ∃ e rest, c.toList = (keyOf a).toList ++ e::rest ∧ e < '/'

theorem toList_keyOf_append (a r : Path) (ha : ∀ s ∈ a, FileName s) (hr : ∀ s ∈ r, FileName s)
    (ha0 : a ≠ []) (hr0 : r ≠ []) :
    (keyOf (a ++ r)).toList = (keyOf a).toList ++ '/'::(keyOf r).toList := by
  rw [keyOf_append a r ha hr ha0 hr0, String.toList_append, String.toList_append,
    List.append_assoc]
  rfl

theorem clash_of_before (c : String) (p a : Path) (hp : ∀ s ∈ p, FileName s) (ha : a <+: p)
    (ha0 : a ≠ []) (hlt : c < keyOf p) (hz : keyOf a < c)
    (hnot : startsWith c (keyOf a ++ "/") = false) : Clash c p := by
  have hap : a ≠ p := by
    rintro rfl
    exact lt_asymm hlt hz
  obtain ⟨r,rfl⟩ := ha
  have hr0 : r ≠ [] := fun h => hap (by rw [h, List.append_nil])
  rw [String.lt_iff_toList_lt] at hlt hz
  rw [toList_keyOf_append a r (fun s hs => hp s (by simp [hs])) (fun s hs => hp s (by simp [hs]))
    ha0 hr0] at hlt
  obtain ⟨u,hu⟩ := prefix_of_between _ c.toList _ (lt_asymm hz) (lt_asymm hlt)
  cases u with
  | nil =>
    rw [List.append_nil] at hu
    exact absurd (hu ▸ hz) (List.lt_irrefl _)
  | cons e rest =>
    refine ⟨a,List.prefix_append a r,ha0,hap,e,rest,hu.symm,?_⟩
    rw [← hu, append_lt_append_iff, List.cons_lt_cons_iff] at hlt
    rcases hlt with hlt | ⟨rfl,-⟩
    · exact hlt
    · have hstarts : startsWith c (keyOf a ++ "/") = true := by
        rw [startsWith_iff, String.toList_append, ← hu]
        exact ⟨rest,by simp⟩
      rw [hstarts] at hnot
      cases hnot

theorem toList_keyOf_cons (x : String) (r : Path) (hx : FileName x) (hr : ∀ s ∈ r, FileName s) :
    ∃ u, (keyOf (x::r)).toList = x.toList ++ u := by
  by_cases hr0 : r = []
  · exact ⟨[],by simp [hr0, keyOf, childPath]⟩
  · exact ⟨_,toList_keyOf_append [x] r (by simpa using hx) hr (by simp) hr0⟩

theorem lt_append (x y u : List Char) (h : x < y) : x < y ++ u :=
  lt_of_lt_of_le h (not_lt.mp (not_append_lt y u))

theorem prefix_of_startsWith (p a : Path) (hp : ∀ s ∈ p, FileName s) (ha : ∀ s ∈ a, FileName s)
    (h : startsWith (keyOf p) (keyOf a ++ "/") = true) : a <+: p := by
  obtain ⟨u,hu⟩ := (startsWith_iff _ _).mp h
  have hkey : keyOf p = keyOf a ++ "/" ++ String.ofList u := by
    apply String.toList_inj.mp
    simpa using hu.symm
  rw [← segments_keyOf p hp, hkey, segments_slash, segments_keyOf a ha]
  exact List.prefix_append _ _

theorem keyOf_lt_of_fork (pre r : Path) (x y : String) (h : x < y)
    (hx : ∀ s ∈ pre ++ [x], FileName s) (hy : ∀ s ∈ pre ++ y::r, FileName s) :
    keyOf (pre ++ [x]) < keyOf (pre ++ y::r) := by
  obtain ⟨u,hu⟩ := toList_keyOf_cons y r (hy y (by simp)) (fun s hs => hy s (by simp [hs]))
  have hlt : x.toList < (keyOf (y::r)).toList := by
    rw [hu]
    exact lt_append _ _ _ (String.lt_iff_toList_lt.mp h)
  rw [String.lt_iff_toList_lt]
  by_cases hpre : pre = []
  · simpa [hpre, keyOf, childPath] using hlt
  · rw [toList_keyOf_append pre [x] (fun s hs => hx s (by simp [hs])) (fun s hs => hx s (by simp [hs]))
      hpre (by simp), toList_keyOf_append pre _ (fun s hs => hy s (by simp [hs]))
      (fun s hs => hy s (List.mem_append_right _ hs)) hpre (by simp), append_lt_append_iff]
    simpa [keyOf, childPath] using hlt

theorem lt_or_fork (p q : Path) (h : p < q) :
    (∃ r, r ≠ [] ∧ q = p ++ r) ∨
      ∃ pre x y r s, p = pre ++ x::r ∧ q = pre ++ y::s ∧ x < y := by
  induction p generalizing q with
  | nil =>
    cases q with
    | nil => exact absurd h (List.lt_irrefl _)
    | cons y q => exact .inl ⟨y::q,by simp,rfl⟩
  | cons x p ih =>
    cases q with
    | nil => exact absurd h (List.not_lt_nil _)
    | cons y q =>
      rcases List.cons_lt_cons_iff.mp h with hxy | ⟨rfl,hpq⟩
      · exact .inr ⟨[],x,y,p,q,rfl,rfl,hxy⟩
      · rcases ih q hpq with ⟨r,hr0,rfl⟩ | ⟨pre,a,b,r,s,rfl,rfl,hab⟩
        · exact .inl ⟨r,hr0,rfl⟩
        · exact .inr ⟨x::pre,a,b,r,s,rfl,rfl,hab⟩

theorem clash_of_disorder (p q : Path) (hp : ∀ s ∈ p, FileName s) (hq : ∀ s ∈ q, FileName s)
    (hp0 : p ≠ []) (hpath : p < q) (hkey : keyOf q < keyOf p) : Clash (keyOf q) p := by
  rcases lt_or_fork p q hpath with ⟨r,hr0,rfl⟩ | ⟨pre,x,y,r,s,rfl,rfl,hxy⟩
  · rw [String.lt_iff_toList_lt, toList_keyOf_append p r hp (fun s hs => hq s (by simp [hs])) hp0
      hr0] at hkey
    exact absurd hkey (not_append_lt _ _)
  · have hx : ∀ s ∈ pre ++ [x], FileName s := fun s hs => hp s (by
      rw [← List.singleton_append, ← List.append_assoc]
      exact List.mem_append_left _ hs)
    apply clash_of_before (keyOf (pre ++ y::s)) (pre ++ x::r) (pre ++ [x]) hp _ (by simp) hkey
      (keyOf_lt_of_fork pre s x y hxy hx hq)
    · cases hs : startsWith (keyOf (pre ++ y::s)) (keyOf (pre ++ [x]) ++ "/") with
      | false => rfl
      | true =>
        have hfork := prefix_of_startsWith _ _ hq hx hs
        rw [List.prefix_append_right_inj, List.cons_prefix_cons] at hfork
        exact absurd (hfork.1 ▸ hxy) (lt_irrefl _)
    · simp

end Openlake.KeyOrder
