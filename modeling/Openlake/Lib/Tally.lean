import Mathlib

/-!
# Tallies in a hash map and votes by the largest count

A tally folds ballots into an association list with one entry per key. The
iteration order of a hash map is a parameter: any function that permutes the
entries. What a vote can return is a statement about ballot counts alone, and
every entry with the largest count is returned under some iteration order.
-/

set_option autoImplicit false

namespace Lib.Tally

variable {α κ ν : Type*}

structure IterOrder (α : Type*) where
  arrange : List α → List α
  perm : ∀ l, (arrange l).Perm l

def IterOrder.insertion (α : Type*) : IterOrder α := ⟨id,fun l => .refl l⟩

theorem IterOrder.mem_arrange (o : IterOrder α) (a : α) (l : List α) :
    a ∈ o.arrange l ↔ a ∈ l := (o.perm l).mem_iff

def IterOrder.lastOf [DecidableEq α] (a : α) : IterOrder α where
  arrange l := if a ∈ l then l.erase a ++ [a] else l
  perm l := by
    split_ifs with h
    · exact (List.perm_append_singleton a _).trans (List.perm_cons_erase h).symm
    · exact .refl l

def IterOrder.firstOf [DecidableEq α] (a : α) : IterOrder α where
  arrange l := if a ∈ l then a :: l.erase a else l
  perm l := by
    split_ifs with h
    · exact (List.perm_cons_erase h).symm
    · exact .refl l

section Fold

variable [DecidableEq κ]

def find (k : κ) : List (κ × ν) → Option ν
  | [] => none
  | (a,v)::m => if k = a then some v else find k m

def entry (k : κ) (f : Option ν → ν) : List (κ × ν) → List (κ × ν)
  | [] => [(k,f none)]
  | (a,v)::m => if k = a then (a,f (some v))::m else (a,v)::entry k f m

def tally (key : α → κ) (step : Option ν → α → ν) : List α → List (κ × ν) → List (κ × ν)
  | [], m => m
  | a::as, m => tally key step as (entry (key a) (fun o => step o a) m)

theorem find_entry (k l : κ) (f : Option ν → ν) (m : List (κ × ν)) :
    find l (entry k f m) = if l = k then some (f (find k m)) else find l m := by
  induction m with
  | nil => simp [entry, find]
  | cons e m ih =>
    obtain ⟨a,v⟩ := e
    by_cases hk : k = a
    · subst hk
      by_cases hl : l = k <;> simp [entry, find, hl]
    · by_cases hl : l = a
      · subst hl
        simp [entry, find, hk, Ne.symm hk]
      · simp [entry, find, hk, hl, ih]

theorem keys_entry (k : κ) (f : Option ν → ν) (m : List (κ × ν)) :
    (entry k f m).map Prod.fst =
      if k ∈ m.map Prod.fst then m.map Prod.fst else m.map Prod.fst ++ [k] := by
  induction m with
  | nil => simp [entry]
  | cons e m ih =>
    obtain ⟨a,v⟩ := e
    by_cases hk : k = a
    · simp [entry, hk]
    · rw [entry, if_neg hk, List.map_cons, List.map_cons, ih]
      by_cases hm : k ∈ m.map Prod.fst
      · rw [if_pos hm, if_pos (List.mem_cons_of_mem _ hm)]
      · rw [if_neg hm, if_neg (by simpa [hk] using hm), List.cons_append]

theorem nodup_entry (k : κ) (f : Option ν → ν) (m : List (κ × ν))
    (hm : (m.map Prod.fst).Nodup) : ((entry k f m).map Prod.fst).Nodup := by
  rw [keys_entry]
  split_ifs with h
  · exact hm
  · rw [List.nodup_append]
    exact ⟨hm,by simp,by simpa using fun a b hab hak => h (by simpa [← hak] using ⟨b,hab⟩)⟩

variable (key : α → κ) (step : Option ν → α → ν)

theorem nodup_tally (xs : List α) (m : List (κ × ν))
    (hm : (m.map Prod.fst).Nodup) : ((tally key step xs m).map Prod.fst).Nodup := by
  induction xs generalizing m with
  | nil => exact hm
  | cons a as ih => exact ih _ (nodup_entry _ _ _ hm)

theorem mem_iff_find (m : List (κ × ν)) (hm : (m.map Prod.fst).Nodup) (k : κ) (v : ν) :
    (k,v) ∈ m ↔ find k m = some v := by
  induction m with
  | nil => simp [find]
  | cons e m ih =>
    obtain ⟨a,w⟩ := e
    obtain ⟨ha,hr⟩ := List.nodup_cons.mp hm
    by_cases hk : k = a
    · subst hk
      have hno : (k,v) ∉ m := fun h => ha (List.mem_map.mpr ⟨_,h,rfl⟩)
      simp [find, hno, eq_comm]
    · simp [find, hk, ih hr]

theorem find_tally (xs : List α) (m : List (κ × ν))
    (k : κ) : find k (tally key step xs m) =
      (xs.filter (fun a => k = key a)).foldl (fun o a => some (step o a)) (find k m) := by
  induction xs generalizing m with
  | nil => rfl
  | cons a as ih =>
    rw [tally, ih, find_entry]
    by_cases hk : k = key a
    · subst hk
      simp
    · simp [hk]

/-- An entry of a finished tally is the fold of `step` over the ballots that
carry its key, in ballot order. -/
theorem mem_tally (xs : List α) (k : κ) (v : ν) :
    (k,v) ∈ tally key step xs [] ↔
      (xs.filter (fun a => k = key a)).foldl (fun o a => some (step o a)) none = some v := by
  rw [mem_iff_find _ (nodup_tally key step xs [] (by simp)), find_tally]
  rfl

theorem length_filter_key (xs : List α) (k : κ) :
    (xs.filter (fun a => k = key a)).length = (xs.map key).count k := by
  induction xs with
  | nil => rfl
  | cons a as ih =>
    by_cases hk : k = key a
    · simp [← hk, ← ih]
    · simp [hk, Ne.symm hk, ih]

end Fold

section Count

variable [DecidableEq κ]

def countStep (o : Option ℕ) (_ : α) : ℕ := o.getD 0+1

theorem foldl_countStep (xs : List α) (o : Option ℕ) :
    xs.foldl (fun o a => some (countStep o a)) o =
      if xs = [] then o else some (o.getD 0+xs.length) := by
  induction xs generalizing o with
  | nil => rfl
  | cons a as ih =>
    rw [List.foldl_cons, ih]
    cases as <;> simp [countStep]
    omega

theorem mem_tally_count (key : α → κ) (xs : List α) (k : κ) (c : ℕ) :
    (k,c) ∈ tally key countStep xs [] ↔ c = (xs.map key).count k ∧ 0 < c := by
  rw [mem_tally, foldl_countStep, ← length_filter_key]
  cases xs.filter (fun a => k = key a) <;> simp [eq_comm]
  omega

def firstStep (o : Option (ℕ × α)) (a : α) : ℕ × α :=
  o.elim (1,a) (fun v => (v.1+1,v.2))

theorem foldl_firstStep (xs : List α) (c : ℕ) (a : α) :
    xs.foldl (fun o a => some (firstStep o a)) (some (c,a)) = some (c+xs.length,a) := by
  induction xs generalizing c with
  | nil => rfl
  | cons b bs ih =>
    rw [List.foldl_cons, firstStep, Option.elim_some, ih]
    simp only [List.length_cons, Option.some.injEq, Prod.mk.injEq, and_true]
    omega

theorem mem_tally_first (key : α → κ) (xs : List α) (k : κ) (c : ℕ) (a : α) :
    (k,c,a) ∈ tally key firstStep xs [] ↔
      (xs.filter (fun a => k = key a)).head? = some a ∧ c = (xs.map key).count k := by
  rw [mem_tally, ← length_filter_key]
  cases xs.filter (fun a => k = key a) with
  | nil => simp
  | cons b bs =>
    rw [List.foldl_cons, firstStep, Option.elim_none, foldl_firstStep]
    simp only [List.head?_cons, List.length_cons, Option.some.injEq, Prod.mk.injEq]
    constructor
    · rintro ⟨rfl,rfl⟩
      exact ⟨rfl,by omega⟩
    · rintro ⟨rfl,rfl⟩
      exact ⟨by omega,rfl⟩

theorem count_add_count_le (v : List κ) (a b : κ) (h : a ≠ b) :
    v.count a+v.count b ≤ v.length := by
  induction v with
  | nil => simp
  | cons x v ih =>
    rw [List.count_cons, List.count_cons, List.length_cons]
    by_cases ha : x = a
    · have hb : x ≠ b := fun hb => h (ha.symm.trans hb)
      simp only [ha, beq_self_eq_true, if_true]
      rw [if_neg (by simpa [← ha] using hb)]
      omega
    · rw [if_neg (by simpa using ha)]
      split_ifs <;> omega

end Count

def maxByKey (f : α → ℕ) : List α → Option α
  | [] => none
  | a::as =>
    match maxByKey f as with
    | none => some a
    | some b => if f a ≤ f b then some b else some a

variable (ok : α → Bool) (f : α → ℕ) (l : List α)

theorem maxByKey_eq_none : maxByKey f l = none ↔ l = [] := by
  cases l with
  | nil => simp [maxByKey]
  | cons a as =>
    simp only [maxByKey]
    split
    · simp
    · split_ifs <;> simp

theorem maxByKey_spec (a : α) (h : maxByKey f l = some a) :
    a ∈ l ∧ ∀ b ∈ l, f b ≤ f a := by
  induction l generalizing a with
  | nil => simp [maxByKey] at h
  | cons x xs ih =>
    rw [maxByKey] at h
    cases hm : maxByKey f xs with
    | none =>
      rw [hm] at h
      rw [(maxByKey_eq_none f xs).mp hm]
      obtain rfl := Option.some.inj h
      simp
    | some b =>
      simp only [hm] at h
      obtain ⟨hb,hmax⟩ := ih b hm
      split_ifs at h with hle <;> obtain rfl := Option.some.inj h
      · exact ⟨by simp [hb],by simpa using ⟨hle,hmax⟩⟩
      · refine ⟨by simp,?_⟩
        intro c hc
        rcases List.mem_cons.mp hc with rfl | hc
        · exact Nat.le_refl _
        · have := hmax c hc
          omega

theorem maxByKey_append_max (a : α) (h : ∀ b ∈ l, f b ≤ f a) :
    maxByKey f (l++[a]) = some a := by
  induction l with
  | nil => rfl
  | cons x xs ih =>
    rw [List.cons_append, maxByKey, ih (fun b hb => h b (by simp [hb]))]
    simp [h x]

theorem maxByKey_lastOf [DecidableEq α] (a : α) (ha : a ∈ l)
    (h : ∀ b ∈ l, f b ≤ f a) : maxByKey f ((IterOrder.lastOf a).arrange l) = some a := by
  simp only [IterOrder.lastOf, if_pos ha]
  exact maxByKey_append_max f _ a (fun b hb => h b (List.mem_of_mem_erase hb))

theorem maxByKey_filter_lastOf [DecidableEq α] (a : α)
    (ha : a ∈ l) (hok : ok a = true) (h : ∀ b ∈ l, ok b = true → f b ≤ f a) :
    maxByKey f (((IterOrder.lastOf a).arrange l).filter ok) = some a := by
  have hkeep : [a].filter ok = [a] := List.filter_eq_self.mpr (by simpa using hok)
  simp only [IterOrder.lastOf, if_pos ha]
  rw [List.filter_append, hkeep]
  apply maxByKey_append_max
  intro b hb
  obtain ⟨hb,hokb⟩ := List.mem_filter.mp hb
  exact h b (List.mem_of_mem_erase hb) hokb

def scanMax (ok : α → Bool) (f : α → ℕ) : Option α → List α → Option α
  | best, [] => best
  | best, a::as =>
    if ok a && best.all (fun b => f b < f a) then scanMax ok f (some a) as
    else scanMax ok f best as

theorem scanMax_spec (best : Option α) (a : α)
    (hb : ∀ b ∈ best, ok b) (h : scanMax ok f best l = some a) :
    (a ∈ l ∨ best = some a) ∧ ok a ∧ (∀ b ∈ l, ok b → f b ≤ f a) ∧ ∀ b ∈ best, f b ≤ f a := by
  induction l generalizing best with
  | nil =>
    obtain rfl : best = some a := h
    simpa using hb
  | cons x xs ih =>
    rw [scanMax] at h
    split_ifs at h with hc
    · rw [Bool.and_eq_true] at hc
      obtain ⟨hm,hok,hmax,hx⟩ := ih (some x) (by simpa using hc.1) h
      have hxa : f x ≤ f a := hx x rfl
      refine ⟨by simp only [List.mem_cons, Option.some.injEq] at hm ⊢; tauto,hok,?_,?_⟩
      · simpa using ⟨fun _ => hxa,hmax⟩
      · intro b hbb
        have hlt := hc.2
        rw [Option.mem_def.mp hbb] at hlt
        have : f b < f x := by simpa using hlt
        omega
    · obtain ⟨hm,hok,hmax,hbest⟩ := ih best hb h
      refine ⟨by simp only [List.mem_cons] at hm ⊢; tauto,hok,?_,hbest⟩
      intro b hbx hokb
      rcases List.mem_cons.mp hbx with rfl | hbx
      · rw [Bool.and_eq_true, not_and, Option.all_eq_true] at hc
        push Not at hc
        obtain ⟨c,hcb,hle⟩ := hc hokb
        have hca := hbest c hcb
        have : ¬ f c < f b := by simpa using hle
        omega
      · exact hmax b hbx hokb

theorem scanMax_eq_none (best : Option α) :
    scanMax ok f best l = none ↔ best = none ∧ ∀ a ∈ l, ok a = false := by
  induction l generalizing best with
  | nil => simp [scanMax]
  | cons x xs ih =>
    rw [scanMax]
    cases hx : ok x <;> cases best <;> simp [hx, ih]
    split_ifs <;> simp [ih]

theorem scanMax_of_max (a : α)
    (h : ∀ b ∈ l, ok b → f b ≤ f a) : scanMax ok f (some a) l = some a := by
  induction l with
  | nil => rfl
  | cons x xs ih =>
    rw [scanMax, if_neg]
    · exact ih (fun b hb => h b (by simp [hb]))
    · simpa using h x (by simp)

theorem scanMax_firstOf [DecidableEq α] (a : α)
    (ha : a ∈ l) (hok : ok a) (h : ∀ b ∈ l, ok b → f b ≤ f a) :
    scanMax ok f none ((IterOrder.firstOf a).arrange l) = some a := by
  simp only [IterOrder.firstOf, if_pos ha, scanMax, hok, Option.all_none, Bool.and_self, if_true]
  exact scanMax_of_max ok f _ a (fun b hb => h b (List.mem_of_mem_erase hb))

section Vote

variable [DecidableEq κ]

def Leads (v : List κ) (k : κ) : Prop := k ∈ v ∧ ∀ l, v.count l ≤ v.count k

def LeadsAmong (quorum : κ → ℕ) (v : List κ) (k : κ) : Prop :=
  k ∈ v ∧ quorum k ≤ v.count k ∧ ∀ l ∈ v, quorum l ≤ v.count l → v.count l ≤ v.count k

variable {k : κ}

theorem Leads.perm {v w : List κ} (h : v.Perm w) (hk : Leads v k) : Leads w k :=
  ⟨h.mem_iff.mp hk.1,fun l => by rw [← h.count_eq, ← h.count_eq]; exact hk.2 l⟩

theorem LeadsAmong.perm {v w : List κ} (h : v.Perm w) {quorum : κ → ℕ}
    (hk : LeadsAmong quorum v k) : LeadsAmong quorum w k := by
  refine ⟨h.mem_iff.mp hk.1,by rw [← h.count_eq]; exact hk.2.1,fun l hl hq => ?_⟩
  rw [← h.count_eq] at hq ⊢
  rw [← h.count_eq]
  exact hk.2.2 l (h.mem_iff.mpr hl) hq

/-- `T` is a finished tally of the ballots `v`: one entry per key that was
voted for, and `f` reads an entry's count. -/
structure Counts (v : List κ) (f : κ × ν → ℕ) (T : List (κ × ν)) : Prop where
  size : ∀ e ∈ T, f e = v.count e.1
  key : ∀ k, k ∈ v ↔ ∃ w, (k,w) ∈ T

theorem counts_countStep (key : α → κ) (xs : List α) :
    Counts (xs.map key) Prod.snd (tally key countStep xs []) := by
  refine ⟨fun e he => ((mem_tally_count key xs e.1 e.2).mp he).1,fun k => ?_⟩
  simp only [mem_tally_count]
  rw [← List.count_pos_iff]
  exact ⟨fun h => ⟨_,rfl,h⟩,fun ⟨c,hc,h⟩ => hc ▸ h⟩

theorem counts_firstStep (key : α → κ) (xs : List α) :
    Counts (xs.map key) (fun e => e.2.1) (tally key firstStep xs []) := by
  refine ⟨fun e he => ((mem_tally_first key xs e.1 e.2.1 e.2.2).mp he).2,fun k => ?_⟩
  rw [← List.count_pos_iff, ← length_filter_key]
  constructor
  · intro h
    obtain ⟨a,as,hc⟩ := List.exists_cons_of_length_pos h
    exact ⟨(_,a),(mem_tally_first key xs k _ a).mpr ⟨by rw [hc]; rfl,rfl⟩⟩
  · rintro ⟨⟨c,a⟩,h⟩
    have hh := ((mem_tally_first key xs k c a).mp h).1
    exact List.length_pos_of_mem (List.mem_of_head? hh)

variable {v : List κ} {f : κ × ν → ℕ} {T : List (κ × ν)}

variable {e : κ × ν}

theorem Counts.size_le (hT : Counts v f T) (he : e ∈ T)
    (h : ∀ d ∈ T, f d ≤ f e) (l : κ) : v.count l ≤ v.count e.1 := by
  by_cases hl : l ∈ v
  · obtain ⟨w,hw⟩ := (hT.key l).mp hl
    rw [← hT.size e he, ← hT.size _ hw]
    exact h _ hw
  · rw [List.count_eq_zero_of_not_mem hl]
    omega

theorem Counts.vote_leads (hT : Counts v f T) (o : IterOrder (κ × ν))
    (h : maxByKey f (o.arrange T) = some e) : e ∈ T ∧ Leads v e.1 := by
  obtain ⟨he,hmax⟩ := maxByKey_spec f _ e h
  rw [o.mem_arrange] at he
  exact ⟨he,(hT.key e.1).mpr ⟨e.2,he⟩,
    hT.size_le he (fun d hd => hmax d ((o.mem_arrange d T).mpr hd))⟩

theorem Counts.vote_none (hT : Counts v f T) (o : IterOrder (κ × ν)) :
    maxByKey f (o.arrange T) = none ↔ v = [] := by
  simp only [maxByKey_eq_none, List.eq_nil_iff_forall_not_mem, o.mem_arrange]
  constructor
  · intro h k hk
    obtain ⟨w,hw⟩ := (hT.key k).mp hk
    exact h _ hw
  · exact fun h e he => h e.1 ((hT.key e.1).mpr ⟨e.2,he⟩)

theorem exists_leads (v : List κ) (hv : v ≠ []) : ∃ k, Leads v k := by
  have hT := counts_countStep id v
  rw [List.map_id] at hT
  cases hm : maxByKey Prod.snd ((IterOrder.insertion (κ × ℕ)).arrange (tally id countStep v [])) with
  | none => exact absurd ((hT.vote_none _).mp hm) hv
  | some e => exact ⟨e.1,(hT.vote_leads _ hm).2⟩

theorem Counts.exists_vote [DecidableEq ν] (hT : Counts v f T) (hk : Leads v k) :
    ∃ (o : IterOrder (κ × ν)) (e : κ × ν), e.1 = k ∧ maxByKey f (o.arrange T) = some e := by
  obtain ⟨w,hw⟩ := (hT.key k).mp hk.1
  refine ⟨IterOrder.lastOf (k,w),(k,w),rfl,maxByKey_lastOf f T _ hw fun b hb => ?_⟩
  rw [hT.size b hb, hT.size _ hw]
  exact hk.2 b.1

theorem Counts.exists_filtered_vote [DecidableEq ν] (hT : Counts v f T) (quorum : ℕ)
    (hk : LeadsAmong (fun _ => quorum) v k) : ∃ (o : IterOrder (κ × ν)) (e : κ × ν), e ∈ T ∧ e.1 = k ∧
      maxByKey f ((o.arrange T).filter (fun e => decide (quorum ≤ f e))) = some e := by
  obtain ⟨w,hw⟩ := (hT.key k).mp hk.1
  refine ⟨IterOrder.lastOf (k,w),(k,w),hw,rfl,?_⟩
  apply maxByKey_filter_lastOf _ f T _ hw
  · simpa [hT.size _ hw] using hk.2.1
  · intro b hb hok
    rw [hT.size b hb, hT.size _ hw]
    apply hk.2.2 b.1 ((hT.key b.1).mpr ⟨b.2,hb⟩)
    simpa [hT.size b hb] using hok

theorem Counts.scan_leadsAmong (hT : Counts v f T) (quorum : κ → ℕ) (o : IterOrder (κ × ν))
    (h : scanMax (fun e => quorum e.1 ≤ f e) f none (o.arrange T) = some e) :
    e ∈ T ∧ LeadsAmong quorum v e.1 := by
  obtain ⟨hm,hok,hmax,-⟩ := scanMax_spec _ f _ none e (by simp) h
  have he : e ∈ T := (o.mem_arrange e T).mp (hm.resolve_right (by simp))
  refine ⟨he,(hT.key e.1).mpr ⟨e.2,he⟩,by simpa [hT.size e he] using hok,fun l hl hq => ?_⟩
  obtain ⟨w,hw⟩ := (hT.key l).mp hl
  have := hmax (l,w) ((o.mem_arrange _ T).mpr hw) (by simpa [hT.size _ hw] using hq)
  rwa [hT.size _ hw, hT.size e he] at this

theorem Counts.scan_none (hT : Counts v f T) (quorum : κ → ℕ) (o : IterOrder (κ × ν)) :
    scanMax (fun e => quorum e.1 ≤ f e) f none (o.arrange T) = none ↔
      ∀ k ∈ v, v.count k < quorum k := by
  rw [scanMax_eq_none]
  constructor
  · intro h k hk
    obtain ⟨w,hw⟩ := (hT.key k).mp hk
    have := h.2 _ ((o.mem_arrange _ T).mpr hw)
    simpa [hT.size _ hw] using this
  · intro h
    refine ⟨rfl,fun e he => ?_⟩
    rw [o.mem_arrange] at he
    simpa [hT.size e he] using h e.1 ((hT.key e.1).mpr ⟨e.2,he⟩)

theorem Counts.exists_scan [DecidableEq ν] (hT : Counts v f T) (quorum : κ → ℕ)
    (hk : LeadsAmong quorum v k) : ∃ (o : IterOrder (κ × ν)) (e : κ × ν), e.1 = k ∧
      scanMax (fun e => quorum e.1 ≤ f e) f none (o.arrange T) = some e := by
  obtain ⟨w,hw⟩ := (hT.key k).mp hk.1
  refine ⟨IterOrder.firstOf (k,w),(k,w),rfl,
    scanMax_firstOf _ f T _ hw (by simpa [hT.size _ hw] using hk.2.1) fun b hb hok => ?_⟩
  rw [hT.size b hb, hT.size _ hw]
  refine hk.2.2 b.1 ((hT.key b.1).mpr ⟨b.2,hb⟩) ?_
  simpa [hT.size b hb] using hok

end Vote

end Lib.Tally
