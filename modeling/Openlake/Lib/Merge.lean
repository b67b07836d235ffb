import Mathlib

/-!
# Merging keyed streams by their smallest head

In each round the smallest key at the head of a stream is found and every
stream with this key at its head gives up its head. The rounds go on until all
streams are empty; what becomes of the heads of one round is left open.

Every element is in some round. Streams in the order of their keys meet in one
round for each key, and streams with the same keys in the order they share.
-/

set_option autoImplicit false

namespace Lib.Merge

variable {α β κ : Type} [LinearOrder κ] (key : α → κ)

def lower (cur : Option κ) (k : κ) : Option κ := if cur.all (k < ·) then some k else cur

def smallestFrom (cur : Option κ) : List (List α) → Option κ
  | [] => cur
  | []::ss => smallestFrom cur ss
  | (a::_)::ss => smallestFrom (lower cur (key a)) ss

def smallest (ss : List (List α)) : Option κ := smallestFrom key none ss

def headAt (k : κ) (s : List α) : Option α := s.head?.filter (fun a => key a = k)

def heads (k : κ) (ss : List (List α)) : List α := ss.filterMap (headAt key k)

def advance (k : κ) : List α → List α
  | [] => []
  | a::s => if key a = k then s else a::s

def rounds : ℕ → List (List α) → List (List α)
  | 0,_ => []
  | fuel+1,ss =>
    match smallest key ss with
    | none => []
    | some k => heads key k ss::rounds fuel (ss.map (advance key k))

def size (ss : List (List α)) : ℕ := (ss.map List.length).sum

/-- The result of the rounds under `f`. -/
def merge (f : List α → Option β) (ss : List (List α)) : List β :=
  (rounds key (size ss) ss).filterMap f

variable {key}

theorem lower_eq (cur : Option κ) (k : κ) : lower cur k = some (cur.elim k (min k)) := by
  cases cur with
  | none => rfl
  | some c =>
    rcases lt_or_ge k c with h | h
    · simp [lower, h, h.le]
    · simp [lower, h, h.not_gt]

theorem smallestFrom_none (cur : Option κ) (ss : List (List α)) :
    smallestFrom key cur ss = none ↔ cur = none ∧ ∀ s ∈ ss, s = [] := by
  induction ss generalizing cur with
  | nil => simp [smallestFrom]
  | cons s ss ih => cases s <;> simp [smallestFrom, ih, lower_eq]

theorem smallestFrom_some (cur : Option κ) (ss : List (List α)) (k : κ)
    (h : smallestFrom key cur ss = some k) :
    (cur = some k ∨ ∃ a s, a::s ∈ ss ∧ key a = k) ∧ (∀ k', cur = some k' → k ≤ k') ∧
      ∀ a s, a::s ∈ ss → k ≤ key a := by
  induction ss generalizing cur with
  | nil => simp_all [smallestFrom]
  | cons s ss ih =>
    cases s with
    | nil => simpa using ih cur h
    | cons a s =>
      obtain ⟨hfrom,hcur,hmin⟩ := ih _ h
      rw [lower_eq] at hfrom hcur
      have hle := hcur _ rfl
      have ha : k ≤ key a := by
        cases cur with
        | none => exact hle
        | some c => exact hle.trans (min_le_left _ _)
      refine ⟨?_,?_,?_⟩
      · rcases hfrom with hfrom | ⟨b,s',hb,hbk⟩
        · cases cur with
          | none => exact .inr ⟨a,s,List.mem_cons_self,Option.some.inj hfrom⟩
          | some c =>
            have hk : min (key a) c = k := Option.some.inj hfrom
            rcases min_choice (key a) c with hm | hm
            · exact .inr ⟨a,s,List.mem_cons_self,hm ▸ hk⟩
            · exact .inl (congrArg some (hm ▸ hk))
        · exact .inr ⟨b,s',List.mem_cons_of_mem _ hb,hbk⟩
      · rintro c rfl
        exact hle.trans (min_le_right _ _)
      · intro b s' hb
        rcases List.mem_cons.mp hb with he | hb
        · exact (List.cons.inj he).1 ▸ ha
        · exact hmin b s' hb

theorem smallest_none (ss : List (List α)) : smallest key ss = none ↔ ∀ s ∈ ss, s = [] := by
  rw [smallest, smallestFrom_none]
  simp

theorem smallest_some (ss : List (List α)) (k : κ) (h : smallest key ss = some k) :
    (∃ a s, a::s ∈ ss ∧ key a = k) ∧ ∀ a s, a::s ∈ ss → k ≤ key a := by
  obtain ⟨hfrom,-,hmin⟩ := smallestFrom_some none ss k h
  exact ⟨hfrom.resolve_left nofun,hmin⟩

theorem mem_heads (k : κ) (ss : List (List α)) (a : α) :
    a ∈ heads key k ss ↔ key a = k ∧ ∃ s, a::s ∈ ss := by
  simp only [heads, headAt, List.mem_filterMap, Option.filter_eq_some_iff, List.head?_eq_some_iff,
    decide_eq_true_eq]
  constructor
  · rintro ⟨s,hs,⟨s',rfl⟩,hk⟩
    exact ⟨hk,s',hs⟩
  · rintro ⟨hk,s,hs⟩
    exact ⟨_,hs,⟨s,rfl⟩,hk⟩

theorem length_advance (k : κ) (s : List α) : (advance key k s).length ≤ s.length := by
  cases s with
  | nil => exact le_rfl
  | cons a s =>
    rw [advance]
    split_ifs <;> simp

theorem size_advance (k : κ) (ss : List (List α)) (a : α) (s : List α) (h : a::s ∈ ss)
    (hk : key a = k) : size (ss.map (advance key k)) < size ss := by
  rw [size, size, List.map_map]
  apply List.sum_lt_sum
  · exact fun s _ => length_advance k s
  · exact ⟨a::s,h,by simp [advance, hk]⟩

theorem mem_advance (k : κ) (s : List α) (a : α) (h : a ∈ advance key k s) : a ∈ s := by
  cases s with
  | nil => exact h
  | cons b s =>
    rw [advance] at h
    split_ifs at h
    · exact List.mem_cons_of_mem b h
    · exact h

theorem all_nil_of_size (ss : List (List α)) (h : size ss = 0) : ∀ s ∈ ss, s = [] := by
  intro s hs
  have hle : s.length ≤ size ss := List.single_le_sum (by simp) _ (List.mem_map_of_mem hs)
  exact List.length_eq_zero_iff.mp (by omega)

/-- A stream gives up an element in a round or keeps it. -/
theorem mem_stream (k : κ) (ss : List (List α)) (a : α) :
    (∃ s ∈ ss, a ∈ s) ↔ a ∈ heads key k ss ∨ ∃ s ∈ ss.map (advance key k), a ∈ s := by
  simp only [mem_heads, List.mem_map, exists_exists_and_eq_and]
  constructor
  · rintro ⟨s,hs,ha⟩
    cases s with
    | nil => cases ha
    | cons c s =>
      by_cases hc : key c = k
      · rcases List.mem_cons.mp ha with rfl | ha
        · exact .inl ⟨hc,s,hs⟩
        · exact .inr ⟨_,hs,by rwa [advance, if_pos hc]⟩
      · exact .inr ⟨_,hs,by rwa [advance, if_neg hc]⟩
  · rintro (⟨-,s,hs⟩ | ⟨s,hs,ha⟩)
    · exact ⟨_,hs,List.mem_cons_self⟩
    · exact ⟨s,hs,mem_advance k s a ha⟩

/-- What is in the streams is in the rounds. -/
theorem mem_rounds (fuel : ℕ) (ss : List (List α)) (hfuel : size ss ≤ fuel) (a : α) :
    (∃ g ∈ rounds key fuel ss, a ∈ g) ↔ ∃ s ∈ ss, a ∈ s := by
  have hnone : ∀ ss : List (List α), (∀ s ∈ ss, s = []) →
      ((∃ g ∈ ([] : List (List α)), a ∈ g) ↔ ∃ s ∈ ss, a ∈ s) := by
    intro ss hempty
    constructor
    · rintro ⟨g,hg,-⟩
      cases hg
    · rintro ⟨s,hs,ha⟩
      rw [hempty s hs] at ha
      cases ha
  induction fuel generalizing ss with
  | zero => exact hnone ss (all_nil_of_size ss (by omega))
  | succ fuel ih =>
    rw [rounds]
    cases hk : smallest key ss with
    | none => exact hnone ss ((smallest_none ss).mp hk)
    | some k =>
      obtain ⟨⟨b,r,hb,hbk⟩,-⟩ := smallest_some ss k hk
      have hless := size_advance k ss b r hb hbk
      have hrest := ih (ss.map (advance key k)) (by omega)
      calc (∃ g ∈ heads key k ss::rounds key fuel (ss.map (advance key k)), a ∈ g)
          ↔ a ∈ heads key k ss ∨ ∃ g ∈ rounds key fuel (ss.map (advance key k)), a ∈ g :=
            List.exists_mem_cons_iff ..
        _ ↔ a ∈ heads key k ss ∨ ∃ s ∈ ss.map (advance key k), a ∈ s := or_congr_right hrest
        _ ↔ ∃ s ∈ ss, a ∈ s := (mem_stream k ss a).symm

theorem rounds_group (fuel : ℕ) (ss : List (List α)) (g : List α) (h : g ∈ rounds key fuel ss) :
    ∃ k, g ≠ [] ∧ ∀ a ∈ g, key a = k := by
  induction fuel generalizing ss with
  | zero => cases h
  | succ fuel ih =>
    rw [rounds] at h
    cases hk : smallest key ss with
    | none => rw [hk] at h; cases h
    | some k =>
      rw [hk] at h
      rcases List.mem_cons.mp h with rfl | h
      · obtain ⟨⟨b,r,hb,hbk⟩,-⟩ := smallest_some ss k hk
        exact ⟨k,List.ne_nil_of_mem ((mem_heads k ss b).mpr ⟨hbk,r,hb⟩),
          fun a ha => ((mem_heads k ss a).mp ha).1⟩
      · exact ih _ h

/-- Each round gives one result, under the key its heads share. -/
structure Keyed (key : α → κ) (f : List α → Option β) (out : β → κ) : Prop where
  result : ∀ k g, g ≠ [] → (∀ a ∈ g, key a = k) → ∃ b, f g = some b ∧ out b = k

section Results

variable {f : List α → Option β} {out : β → κ}

omit [LinearOrder κ] in
theorem Keyed.mem_results (h : Keyed key f out) (gs : List (List α))
    (hgs : ∀ g ∈ gs, ∃ k, g ≠ [] ∧ ∀ a ∈ g, key a = k) (k : κ) :
    k ∈ (gs.filterMap f).map out ↔ ∃ g ∈ gs, ∃ a ∈ g, key a = k := by
  simp only [List.mem_map, List.mem_filterMap]
  constructor
  · rintro ⟨b,⟨g,hg,hb⟩,rfl⟩
    obtain ⟨k,hne,hk⟩ := hgs g hg
    obtain ⟨b',hb',hout⟩ := h.result k g hne hk
    obtain rfl := Option.some.inj (hb'.symm.trans hb)
    obtain ⟨a,ha⟩ := List.exists_mem_of_ne_nil g hne
    exact ⟨g,hg,a,ha,(hk a ha).trans hout.symm⟩
  · rintro ⟨g,hg,a,ha,rfl⟩
    obtain ⟨k,hne,hk⟩ := hgs g hg
    obtain ⟨b,hb,hout⟩ := h.result k g hne hk
    exact ⟨b,⟨g,hg,hb⟩,hout.trans (hk a ha).symm⟩

/-- The merged keys are the keys in the streams. -/
theorem Keyed.mem_merge (h : Keyed key f out) (ss : List (List α)) (k : κ) :
    k ∈ (merge key f ss).map out ↔ ∃ s ∈ ss, ∃ a ∈ s, key a = k := by
  rw [merge, h.mem_results _ (fun g hg => rounds_group _ ss g hg)]
  have hmem : ∀ a, (∃ g ∈ rounds key (size ss) ss, a ∈ g) ↔ ∃ s ∈ ss, a ∈ s :=
    mem_rounds (size ss) ss le_rfl
  constructor
  · rintro ⟨g,hg,a,ha,hk⟩
    obtain ⟨s,hs,has⟩ := (hmem a).mp ⟨g,hg,ha⟩
    exact ⟨s,hs,a,has,hk⟩
  · rintro ⟨s,hs,a,ha,hk⟩
    obtain ⟨g,hg,hag⟩ := (hmem a).mpr ⟨s,hs,ha⟩
    exact ⟨g,hg,a,hag,hk⟩

theorem advance_above (k : κ) (s : List α) (hs : s.Pairwise (fun a b => key a < key b))
    (hk : ∀ a ∈ s.head?, k ≤ key a) :
    (advance key k s).Pairwise (fun a b => key a < key b) ∧ ∀ a ∈ advance key k s, k < key a := by
  cases s with
  | nil => exact ⟨hs,by simp [advance]⟩
  | cons a s =>
    rw [List.pairwise_cons] at hs
    have ha : k ≤ key a := hk a rfl
    rw [advance]
    split_ifs with hak
    · exact ⟨hs.2,fun b hb => hak ▸ hs.1 b hb⟩
    · have hlt : k < key a := lt_of_le_of_ne ha (Ne.symm hak)
      refine ⟨List.pairwise_cons.mpr hs,fun b hb => ?_⟩
      rcases List.mem_cons.mp hb with rfl | hb
      · exact hlt
      · exact hlt.trans (hs.1 b hb)

/-- Streams in the order of their keys are merged in this order. -/
theorem Keyed.rounds_sorted (h : Keyed key f out) (fuel : ℕ) (ss : List (List α))
    (hss : ∀ s ∈ ss, s.Pairwise (fun a b => key a < key b)) (hfuel : size ss ≤ fuel) :
    (((rounds key fuel ss).filterMap f).map out).Pairwise (· < ·) := by
  induction fuel generalizing ss with
  | zero => exact List.Pairwise.nil
  | succ fuel ih =>
    rw [rounds]
    cases hk : smallest key ss with
    | none => exact List.Pairwise.nil
    | some k =>
      obtain ⟨⟨b,r,hb,hbk⟩,hmin⟩ := smallest_some ss k hk
      have hless := size_advance k ss b r hb hbk
      have habove : ∀ s ∈ ss, (advance key k s).Pairwise (fun a b => key a < key b) ∧
          ∀ a ∈ advance key k s, k < key a := by
        intro s hs
        apply advance_above k s (hss s hs)
        intro a ha
        obtain ⟨s',rfl⟩ := List.head?_eq_some_iff.mp ha
        exact hmin a s' hs
      have hheads : heads key k ss ≠ [] := List.ne_nil_of_mem ((mem_heads k ss b).mpr ⟨hbk,r,hb⟩)
      obtain ⟨c,hc,hout⟩ := h.result k _ hheads (fun a ha => ((mem_heads k ss a).mp ha).1)
      rw [List.filterMap_cons_some hc, List.map_cons, List.pairwise_cons, hout]
      refine ⟨fun k' hk' => ?_,ih _ ?_ (by omega)⟩
      · rw [h.mem_results _ (fun g hg => rounds_group _ _ g hg)] at hk'
        obtain ⟨g,hg,a,ha,rfl⟩ := hk'
        obtain ⟨s',hs',has⟩ := (mem_rounds fuel _ (by omega) a).mp ⟨g,hg,ha⟩
        obtain ⟨s,hs,rfl⟩ := List.mem_map.mp hs'
        exact (habove s hs).2 a has
      · intro s' hs'
        obtain ⟨s,hs,rfl⟩ := List.mem_map.mp hs'
        exact (habove s hs).1

theorem Keyed.merge_sorted (h : Keyed key f out) (ss : List (List α))
    (hss : ∀ s ∈ ss, s.Pairwise (fun a b => key a < key b)) :
    ((merge key f ss).map out).Pairwise (· < ·) := h.rounds_sorted (size ss) ss hss le_rfl

theorem length_heads (k : κ) (ss : List (List α))
    (h : ∀ s ∈ ss, ∃ a s', s = a::s' ∧ key a = k) : (heads key k ss).length = ss.length := by
  induction ss with
  | nil => rfl
  | cons s ss ih =>
    obtain ⟨a,s',rfl,ha⟩ := h s List.mem_cons_self
    have hrest := ih (fun s hs => h s (List.mem_cons_of_mem _ hs))
    have hhead : headAt key k (a::s') = some a := by simp [headAt, ha]
    rw [heads] at hrest ⊢
    rw [List.filterMap_cons_some hhead, List.length_cons, hrest, List.length_cons]

/-- Streams with the same keys are merged in the order they share, one head of
each stream to a round. -/
theorem rounds_same (P : α → Prop) (fuel : ℕ) (ss : List (List α)) (ks : List κ) (hne : ss ≠ [])
    (hss : ∀ s ∈ ss, s.map key = ks ∧ ∀ a ∈ s, P a) (hfuel : ks.length ≤ fuel)
    (hf : ∀ k g, g.length = ss.length → (∀ a ∈ g, key a = k ∧ P a) → ∃ b, f g = some b ∧ out b = k) :
    ((rounds key fuel ss).filterMap f).map out = ks := by
  induction ks generalizing fuel ss with
  | nil =>
    have hnil : ∀ s ∈ ss, s = [] := fun s hs => List.map_eq_nil_iff.mp (hss s hs).1
    cases fuel with
    | zero => rfl
    | succ fuel => rw [rounds, (smallest_none ss).mpr hnil]; rfl
  | cons k ks ih =>
    obtain ⟨fuel,rfl⟩ : ∃ n, fuel = n+1 := ⟨fuel-1,by rw [List.length_cons] at hfuel; omega⟩
    have hcons : ∀ s ∈ ss, ∃ a s', s = a::s' ∧ key a = k ∧ s'.map key = ks := by
      intro s hs
      obtain ⟨a,s',rfl,ha,hs'⟩ := List.map_eq_cons_iff.mp (hss s hs).1
      exact ⟨a,s',rfl,ha,hs'⟩
    have hsmall : smallest key ss = some k := by
      cases hk : smallest key ss with
      | none =>
        obtain ⟨s,hs⟩ := List.exists_mem_of_ne_nil ss hne
        obtain ⟨a,s',rfl,-⟩ := hcons s hs
        cases (smallest_none ss).mp hk _ hs
      | some k' =>
        obtain ⟨⟨a,s,has,ha⟩,-⟩ := smallest_some ss k' hk
        obtain ⟨a',s',he,ha',-⟩ := hcons _ has
        rw [← ha, (List.cons.inj he).1, ha']
    have hlen := length_heads k ss fun s hs =>
      let ⟨a,s',he,ha,_⟩ := hcons s hs
      ⟨a,s',he,ha⟩
    obtain ⟨b,hb,hout⟩ := hf k (heads key k ss) hlen fun a ha => by
      obtain ⟨hak,s,hs⟩ := (mem_heads k ss a).mp ha
      exact ⟨hak,(hss _ hs).2 a List.mem_cons_self⟩
    rw [rounds, hsmall]
    show (List.filterMap f (heads key k ss::rounds key fuel (ss.map (advance key k)))).map out = _
    rw [List.filterMap_cons_some hb, List.map_cons, hout, ih fuel (ss.map (advance key k))]
    · simpa using hne
    · intro s' hs'
      obtain ⟨s,hs,rfl⟩ := List.mem_map.mp hs'
      obtain ⟨a,s',rfl,ha,hks⟩ := hcons s hs
      rw [advance, if_pos ha]
      exact ⟨hks,fun b hb => (hss _ hs).2 b (List.mem_cons_of_mem a hb)⟩
    · rw [List.length_cons] at hfuel
      omega
    · simpa using hf

section Single

variable (k : κ) (ss : List (List α)) (hss : ∀ s ∈ ss, s = [] ∨ ∃ a, s = [a] ∧ key a = k)

include hss

theorem heads_single : heads key k ss = ss.flatten := by
  induction ss with
  | nil => rfl
  | cons s ss ih =>
    have hrest := ih (fun s hs => hss s (List.mem_cons_of_mem _ hs))
    rw [heads] at hrest ⊢
    rcases hss s List.mem_cons_self with rfl | ⟨a,rfl,ha⟩
    · rw [List.filterMap_cons_none rfl, hrest]
      rfl
    · rw [List.filterMap_cons_some (show headAt key k [a] = some a by simp [headAt, ha]), hrest]
      rfl

theorem smallest_single (hne : ss.flatten ≠ []) : smallest key ss = some k := by
  cases hk : smallest key ss with
  | none =>
    apply absurd _ hne
    rw [List.flatten_eq_nil_iff]
    exact (smallest_none ss).mp hk
  | some k' =>
    obtain ⟨⟨b,r,hb,rfl⟩,-⟩ := smallest_some ss k' hk
    rcases hss _ hb with h | ⟨a,h,ha⟩
    · cases h
    · rw [(List.cons.inj h).1, ha]

theorem advance_single : ∀ s ∈ ss.map (advance key k), s = [] := by
  intro s' hs'
  obtain ⟨s,hs,rfl⟩ := List.mem_map.mp hs'
  rcases hss s hs with rfl | ⟨a,rfl,ha⟩
  · rfl
  · rw [advance, if_pos ha]

/-- Streams of at most one element under one key are merged in one round. -/
theorem merge_single (f : List α → Option β) :
    merge key f ss = (if ss.flatten = [] then none else f ss.flatten).toList := by
  have hsize : size ss = ss.flatten.length := by rw [size, List.length_flatten]
  split_ifs with hnil
  · rw [merge, hsize, hnil]
    rfl
  · obtain ⟨n,hn⟩ : ∃ n, size ss = n+1 :=
      Nat.exists_eq_succ_of_ne_zero (by rwa [hsize, Ne, List.length_eq_zero_iff])
    have hrest : rounds key n (ss.map (advance key k)) = [] := by
      cases n with
      | zero => rfl
      | succ n => rw [rounds, (smallest_none _).mpr (advance_single k ss hss)]
    rw [merge, hn, rounds, smallest_single k ss hss hnil]
    simp only [hrest, heads_single k ss hss]
    cases hf : f ss.flatten <;> simp [hf]

end Single

end Results

variable {α β κ : Type} [LinearOrder κ] (key : α → κ)

def Ascending (s : List α) : Prop := s.Pairwise (fun a b => key a < key b)

/-- What the streams hold under a key, in the order of the streams. -/
def under (k : κ) (ss : List (List α)) : List α :=
  ss.filterMap (fun s => s.find? (fun a => key a = k))

def keys (ss : List (List α)) : List κ := (ss.flatten.map key).toFinset.sort (· ≤ ·)

variable {key}

variable (f : List α → Option β) (ss : List (List α))

theorem keys_sorted : (keys key ss).Pairwise (· < ·) :=
  (Finset.sortedLT_sort _).pairwise

theorem mem_keys (k : κ) :
    k ∈ keys key ss ↔ ∃ s ∈ ss, ∃ a ∈ s, key a = k := by
  simp only [keys, Finset.mem_sort, List.mem_toFinset, List.mem_map, List.mem_flatten]
  constructor
  · rintro ⟨a,⟨s,hs,ha⟩,hk⟩
    exact ⟨s,hs,a,ha,hk⟩
  · rintro ⟨s,hs,a,ha,hk⟩
    exact ⟨a,⟨s,hs,ha⟩,hk⟩

theorem find_none_of_above (k : κ) (s : List α) (h : ∀ a ∈ s, k < key a) :
    s.find? (fun a => key a = k) = none := by
  rw [List.find?_eq_none]
  intro a ha
  simpa using (h a ha).ne'

theorem headAt_eq_find (k : κ) (s : List α) (hs : Ascending key s)
    (hk : ∀ a ∈ s.head?, k ≤ key a) : headAt key k s = s.find? (fun a => key a = k) := by
  cases s with
  | nil => rfl
  | cons a s =>
    have hle : k ≤ key a := hk a rfl
    have habove : ∀ b ∈ s, key a < key b := (List.pairwise_cons.mp hs).1
    by_cases ha : key a = k
    · simp [headAt, ha]
    · have hnone := find_none_of_above k s (fun b hb => hle.trans_lt (habove b hb))
      simp [headAt, ha, hnone]

theorem find_advance (k k' : κ) (h : k ≠ k') (s : List α) :
    (advance key k s).find? (fun a => key a = k') = s.find? (fun a => key a = k') := by
  cases s with
  | nil => rfl
  | cons a s =>
    rw [advance]
    split_ifs with ha
    · rw [List.find?_cons_of_neg (by simpa [ha] using h)]
    · rfl

theorem under_advance (k k' : κ) (h : k ≠ k') (ss : List (List α)) :
    under key k' (ss.map (advance key k)) = under key k' ss := by
  rw [under, List.filterMap_map, under]
  congr 1
  funext s
  exact find_advance k k' h s

omit [LinearOrder κ] in
theorem no_keys (ss : List (List α)) (h : ∀ s ∈ ss, s = []) (k : κ) :
    k ∈ ([] : List κ) ↔ ∃ s ∈ ss, ∃ a ∈ s, key a = k := by
  constructor
  · intro hk
    cases hk
  · rintro ⟨s,hs,a,ha,-⟩
    rw [h s hs] at ha
    cases ha

theorem heads_eq_under (k : κ) (ss : List (List α)) (hss : ∀ s ∈ ss, Ascending key s)
    (hk : ∀ s ∈ ss, ∀ a ∈ s.head?, k ≤ key a) : heads key k ss = under key k ss :=
  List.filterMap_congr (fun s hs => headAt_eq_find k s (hss s hs) (hk s hs))

theorem exists_rounds (fuel : ℕ) (ss : List (List α)) (hss : ∀ s ∈ ss, Ascending key s)
    (hfuel : size ss ≤ fuel) : ∃ ks : List κ, ks.Pairwise (· < ·) ∧
      (∀ k, k ∈ ks ↔ ∃ s ∈ ss, ∃ a ∈ s, key a = k) ∧
      rounds key fuel ss = ks.map (fun k => under key k ss) := by
  induction fuel generalizing ss with
  | zero => exact ⟨[],.nil,no_keys ss (all_nil_of_size ss (by omega)),rfl⟩
  | succ fuel ih =>
    rw [rounds]
    cases hk : smallest key ss with
    | none => exact ⟨[],.nil,no_keys ss ((smallest_none ss).mp hk),rfl⟩
    | some k =>
      obtain ⟨⟨b,r,hb,hbk⟩,hmin⟩ := smallest_some ss k hk
      have hless := size_advance k ss b r hb hbk
      have hhead : ∀ s ∈ ss, ∀ a ∈ s.head?, k ≤ key a := by
        intro s hs a ha
        obtain ⟨s',rfl⟩ := List.head?_eq_some_iff.mp ha
        exact hmin a s' hs
      have habove := fun s hs => advance_above k s (hss s hs) (hhead s hs)
      obtain ⟨ks,hsorted,hmem,hrounds⟩ := ih (ss.map (advance key k)) (by
        intro s' hs'
        obtain ⟨s,hs,rfl⟩ := List.mem_map.mp hs'
        exact (habove s hs).1) (by omega)
      have hlater : ∀ k' ∈ ks, k < k' := by
        intro k' hk'
        obtain ⟨s',hs',a,ha,rfl⟩ := (hmem k').mp hk'
        obtain ⟨s,hs,rfl⟩ := List.mem_map.mp hs'
        exact (habove s hs).2 a ha
      refine ⟨k::ks,List.pairwise_cons.mpr ⟨hlater,hsorted⟩,fun k' => ?_,?_⟩
      · rw [List.mem_cons, hmem]
        constructor
        · rintro (rfl | ⟨s',hs',a,ha,rfl⟩)
          · exact ⟨_,hb,b,List.mem_cons_self,hbk⟩
          · obtain ⟨s,hs,rfl⟩ := List.mem_map.mp hs'
            exact ⟨s,hs,a,mem_advance k s a ha,rfl⟩
        · rintro ⟨s,hs,a,ha,rfl⟩
          rcases (mem_stream k ss a).mp ⟨s,hs,ha⟩ with hhere | ⟨s',hs',ha'⟩
          · exact .inl ((mem_heads k ss a).mp hhere).1
          · exact .inr ⟨s',hs',a,ha',rfl⟩
      · simp only [hrounds, List.map_cons, heads_eq_under k ss hss hhead]
        congr 1
        apply List.map_congr_left
        intro k' hk'
        exact under_advance k k' (hlater k' hk').ne ss

/-- Sorted streams meet in one round for each key. -/
theorem rounds_eq (hss : ∀ s ∈ ss, Ascending key s) :
    rounds key (size ss) ss = (keys key ss).map (fun k => under key k ss) := by
  obtain ⟨ks,hsorted,hmem,hrounds⟩ := exists_rounds (size ss) ss hss le_rfl
  have hks : ks = keys key ss := by
    apply hsorted.eq_of_mem_iff (keys_sorted ss)
    intro k
    rw [hmem, mem_keys]
  rw [hrounds, hks]

theorem merge_eq (hss : ∀ s ∈ ss, Ascending key s) :
    merge key f ss = (keys key ss).filterMap (fun k => f (under key k ss)) := by
  rw [merge, rounds_eq ss hss, List.filterMap_map]
  rfl

theorem mem_merge (hss : ∀ s ∈ ss, Ascending key s)
    (b : β) : b ∈ merge key f ss ↔ ∃ k ∈ keys key ss, f (under key k ss) = some b := by
  rw [merge_eq f ss hss, List.mem_filterMap]

theorem find_ascending (s : List α) (hs : Ascending key s) (a : α) (ha : a ∈ s) :
    s.find? (fun b => key b = key a) = some a := by
  induction s with
  | nil => cases ha
  | cons b s ih =>
    rw [Ascending, List.pairwise_cons] at hs
    rcases List.mem_cons.mp ha with rfl | ha
    · simp
    · rw [List.find?_cons_of_neg (by simpa using (hs.1 a ha).ne)]
      exact ih hs.2 ha

theorem mem_under (hss : ∀ s ∈ ss, Ascending key s) (k : κ) (a : α) :
    a ∈ under key k ss ↔ key a = k ∧ ∃ s ∈ ss, a ∈ s := by
  rw [under, List.mem_filterMap]
  constructor
  · rintro ⟨s,hs,hfind⟩
    exact ⟨by simpa using List.find?_some hfind,s,hs,List.mem_of_find?_eq_some hfind⟩
  · rintro ⟨rfl,s,hs,ha⟩
    exact ⟨s,hs,find_ascending s (hss s hs) a ha⟩

omit [LinearOrder κ] in
theorem forall₂_filterMap (f : κ → Option β) (ks : List κ) :
    List.Forall₂ (fun k b => f k = some b) (ks.filter (fun k => (f k).isSome))
      (ks.filterMap f) := by
  induction ks with
  | nil => exact .nil
  | cons k ks ih =>
    cases hk : f k with
    | none =>
      rw [List.filter_cons_of_neg (by simp [hk]), List.filterMap_cons_none hk]
      exact ih
    | some b =>
      rw [List.filter_cons_of_pos (by simp [hk]), List.filterMap_cons_some hk]
      exact .cons hk ih

/-- The merge as a result for each of a sorted list of keys that has all keys of
the streams. -/
theorem merge_eq_of_superset (hf : f [] = none) (ss : List (List α))
    (hss : ∀ s ∈ ss, Ascending key s) (ks : List κ) (hks : ks.Pairwise (· < ·))
    (hsub : ∀ k ∈ keys key ss, k ∈ ks) :
    merge key f ss = ks.filterMap (fun k => f (under key k ss)) := by
  have hkeys : keys key ss = ks.filter (· ∈ keys key ss) := by
    apply (keys_sorted ss).eq_of_mem_iff (hks.filter _)
    intro k
    rw [List.mem_filter, decide_eq_true_eq]
    exact ⟨fun hk => ⟨hsub k hk,hk⟩,fun hk => hk.2⟩
  rw [merge_eq f ss hss, hkeys, List.filterMap_filter]
  apply List.filterMap_congr
  intro k _
  split_ifs with hk
  · rfl
  · have hnone : under key k ss = [] := by
      rw [List.eq_nil_iff_forall_not_mem]
      intro a ha
      obtain ⟨hak,s,hs,has⟩ := (mem_under ss hss k a).mp ha
      exact hk (by simpa using (mem_keys ss k).mpr ⟨s,hs,a,has,hak⟩)
    rw [hnone, hf]

theorem smallest_singleton (a : α) (s : List α) : smallest key [a::s] = some (key a) := by
  simp [smallest, smallestFrom, lower]

/-- A single stream is handed on element by element. -/
theorem merge_one (s : List α) :
    merge key f [s] = s.filterMap (fun a => f [a]) := by
  have hrounds : ∀ (fuel : ℕ) (s : List α), s.length ≤ fuel →
      rounds key fuel [s] = s.map (fun a => [a]) := by
    intro fuel
    induction fuel with
    | zero =>
      intro s hs
      rw [List.eq_nil_of_length_eq_zero (Nat.le_zero.mp hs)]
      rfl
    | succ fuel ih =>
      intro s hs
      cases s with
      | nil => rfl
      | cons a s =>
        rw [List.length_cons] at hs
        have hhead : headAt key (key a) (a::s) = some a := by simp [headAt]
        have hrest := ih s (by omega)
        rw [rounds, smallest_singleton]
        simp [heads, hhead, advance, hrest]
  rw [merge, hrounds (size [s]) s (by simp [size]), List.filterMap_map]
  rfl

end Lib.Merge
