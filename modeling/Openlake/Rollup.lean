import Openlake.ListPages

/-!
# Rolled-up listings

A key whose rest after the filter has the delimiter is listed as the text up to
its first delimiter. The names of the entries keep the order of the keys, and keys
rolled up to one name stand together, so every name is listed once and a name is a
cursor into the entries.
-/

set_option autoImplicit false

namespace Openlake.Rollup
open LocalFs GetObject Listing KeyOrder

section Cut

variable (delim : List Char)

/-- The text ends with the first occurrence of the delimiter in `xs`. -/
def CutAt (xs cut : List Char) : Prop :=
  ∃ a b, cut = a ++ delim ∧ xs = a ++ delim ++ b ∧
    ∀ a' b', xs = a' ++ delim ++ b' → a.length ≤ a'.length

theorem upTo_none (hd : delim ≠ []) (xs : List Char) :
    upTo delim xs = none ↔ ¬delim <:+: xs := by
  induction xs with
  | nil => simp [upTo, hd]
  | cons ch rest ih =>
    rw [upTo, List.infix_cons_iff, ← List.isPrefixOf_iff_prefix]
    split_ifs with hpre
    · simp [hpre]
    · simp [hpre, ih]

theorem upTo_some (hd : delim ≠ []) (xs cut : List Char) (h : upTo delim xs = some cut) :
    CutAt delim xs cut := by
  induction xs generalizing cut with
  | nil => simp [upTo, hd] at h
  | cons ch rest ih =>
    rw [upTo] at h
    split_ifs at h with hpre
    · obtain rfl := Option.some.inj h
      obtain ⟨b,hb⟩ := List.isPrefixOf_iff_prefix.mp hpre
      exact ⟨[],b,rfl,hb.symm,fun _ _ _ => Nat.zero_le _⟩
    · obtain ⟨cut',hcut,rfl⟩ := Option.map_eq_some_iff.mp h
      obtain ⟨a,b,rfl,hrest,hmin⟩ := ih cut' hcut
      refine ⟨ch::a,b,rfl,by rw [hrest]; rfl,fun a' b' hsplit => ?_⟩
      cases a' with
      | nil => exact absurd (List.isPrefixOf_iff_prefix.mpr ⟨b',hsplit.symm⟩) hpre
      | cons ch' a' =>
        have := hmin a' b' (List.cons.inj hsplit).2
        simpa using this

theorem CutAt.starts {xs cut : List Char} (h : CutAt delim xs cut) : cut <+: xs := by
  obtain ⟨a,b,rfl,rfl,-⟩ := h
  exact List.prefix_append _ _

theorem CutAt.unique {xs cut cut' : List Char} (h : CutAt delim xs cut)
    (h' : CutAt delim xs cut') : cut = cut' := by
  obtain ⟨a,b,rfl,hxs,hmin⟩ := h
  obtain ⟨a',b',rfl,hxs',hmin'⟩ := h'
  have hlen : a.length = a'.length := le_antisymm (hmin a' b' hxs') (hmin' a b hxs)
  rw [hxs, List.append_assoc, List.append_assoc] at hxs'
  rw [(List.append_inj hxs' hlen).1]

theorem CutAt.carry {xs ys cut : List Char} (h : CutAt delim xs cut) (hys : cut <+: ys) :
    CutAt delim ys cut := by
  obtain ⟨a,b,rfl,rfl,hmin⟩ := h
  obtain ⟨c,rfl⟩ := hys
  refine ⟨a,c,rfl,rfl,fun a' b' hsplit => ?_⟩
  by_contra hlt
  -- an earlier occurrence would lie inside the cut
  have hinside : a' ++ delim <+: a ++ delim := by
    have hthis : a' ++ delim <+: a ++ delim ++ c := by
      rw [hsplit]
      exact List.prefix_append _ _
    apply List.prefix_of_prefix_length_le hthis (List.prefix_append _ _)
    rw [List.length_append, List.length_append]
    omega
  obtain ⟨d,hd⟩ := hinside
  have := hmin a' (d ++ b) (by rw [← hd, List.append_assoc _ d])
  omega

theorem upTo_carry (hd : delim ≠ []) (xs ys cut : List Char) (h : upTo delim xs = some cut)
    (hys : cut <+: ys) : upTo delim ys = some cut := by
  have hcut := (upTo_some delim hd xs cut h).carry delim hys
  cases hup : upTo delim ys with
  | none =>
    obtain ⟨a,b,-,rfl,-⟩ := hcut
    exact absurd ⟨a,b,rfl⟩ ((upTo_none delim hd _).mp hup)
  | some cut' => rw [hcut.unique delim (upTo_some delim hd ys cut' hup)]

def stem (xs : List Char) : List Char := (upTo delim xs).getD xs

theorem stem_starts (hd : delim ≠ []) (xs : List Char) : stem delim xs <+: xs := by
  rw [stem]
  cases hup : upTo delim xs with
  | none => exact List.prefix_refl xs
  | some cut => exact (upTo_some delim hd xs cut hup).starts delim

theorem stem_lt (hd : delim ≠ []) (xs ys : List Char) (h : xs < ys) :
    stem delim xs < stem delim ys ∨ ∃ cut, upTo delim xs = some cut ∧ upTo delim ys = some cut := by
  obtain ⟨u,hu⟩ := stem_starts delim hd xs
  obtain ⟨w,hw⟩ := stem_starts delim hd ys
  rcases lt_trichotomy (stem delim xs) (stem delim ys) with hlt | heq | hgt
  · exact .inl hlt
  · right
    cases hup : upTo delim xs with
    | some cut =>
      have hstem : stem delim xs = cut := by rw [stem, hup, Option.getD_some]
      exact ⟨cut,rfl,upTo_carry delim hd xs ys cut hup ⟨w,by rw [← hstem, heq, hw]⟩⟩
    | none =>
      have hstem : stem delim xs = xs := by rw [stem, hup, Option.getD_none]
      cases hup' : upTo delim ys with
      | some cut =>
        have hcut : stem delim ys = cut := by rw [stem, hup', Option.getD_some]
        have := upTo_carry delim hd ys xs cut hup' (by rw [← hcut, ← heq, hstem])
        rw [hup] at this
        cases this
      | none =>
        have hstem' : stem delim ys = ys := by rw [stem, hup', Option.getD_none]
        rw [hstem, hstem'] at heq
        exact absurd (heq ▸ h) (lt_irrefl _)
  · exfalso
    have hbelow : stem delim ys <+: stem delim xs := by
      apply prefix_of_between _ _ w (lt_asymm hgt)
      rw [hw]
      intro hlt
      apply lt_asymm h
      rw [← hu]
      exact lt_append _ _ _ hlt
    cases hup : upTo delim ys with
    | some cut =>
      have hstem : stem delim ys = cut := by rw [stem, hup, Option.getD_some]
      have hxs := upTo_carry delim hd ys xs cut hup
        (hstem ▸ hbelow.trans (stem_starts delim hd xs))
      rw [hstem, stem, hxs, Option.getD_some] at hgt
      exact lt_irrefl _ hgt
    | none =>
      have hstem : stem delim ys = ys := by rw [stem, hup, Option.getD_none]
      obtain ⟨v,hv⟩ := hbelow.trans (stem_starts delim hd xs)
      rw [hstem] at hv
      exact not_append_lt ys v (by rw [hv]; exact h)

end Cut

section Entries

/-- Keeps one of the common entries in a row, whatever objects stand between. -/
def distinct : Option String → List ListEntry → List ListEntry
  | _,[] => []
  | prev,.object info::es => .object info::distinct prev es
  | prev,.common path::es =>
    if prev = some path then distinct prev es else .common path::distinct (some path) es

/-- The second entry comes later by name, or both are one common entry. -/
def After (e e' : ListEntry) : Prop :=
  entryName e < entryName e' ∨ ∃ path, e = .common path ∧ e' = .common path

theorem distinct_spec (es : List ListEntry) (prev : Option String) (hes : es.Pairwise After)
    (hprev : ∀ path ∈ prev, ∀ e ∈ es, After (.common path) e) :
    ((distinct prev es).map entryName).Pairwise (· < ·) ∧
    (∀ e ∈ distinct prev es, e ∈ es ∧ ∀ path ∈ prev, path < entryName e) ∧
    ∀ e ∈ es, e ∈ distinct prev es ∨ ∃ path ∈ prev, e = .common path := by
  induction es generalizing prev with
  | nil => simp [distinct]
  | cons e es ih =>
    rw [List.pairwise_cons] at hes
    have hrest : ∀ path ∈ prev, ∀ e ∈ es, After (.common path) e :=
      fun path hpath e he => hprev path hpath e (List.mem_cons_of_mem _ he)
    cases e with
    | object info =>
      obtain ⟨hsorted,hmem,hall⟩ := ih prev hes.2 hrest
      have hlater : ∀ e ∈ es, info.key < entryName e := by
        intro e he
        rcases hes.1 e he with h | ⟨path,h,-⟩
        · exact h
        · cases h
      rw [distinct]
      refine ⟨?_,fun e he => ?_,fun e he => ?_⟩
      · rw [List.map_cons, List.pairwise_cons]
        refine ⟨fun name hname => ?_,hsorted⟩
        obtain ⟨e,he,rfl⟩ := List.mem_map.mp hname
        exact hlater e (hmem e he).1
      · rcases List.mem_cons.mp he with rfl | he
        · refine ⟨List.mem_cons_self,fun path hpath => ?_⟩
          rcases hprev path hpath _ List.mem_cons_self with h | ⟨path',-,h⟩
          · exact h
          · cases h
        · exact ⟨List.mem_cons_of_mem _ (hmem e he).1,(hmem e he).2⟩
      · rcases List.mem_cons.mp he with rfl | he
        · exact .inl List.mem_cons_self
        · rcases hall e he with h | h
          · exact .inl (List.mem_cons_of_mem _ h)
          · exact .inr h
    | common path =>
      rw [distinct]
      split_ifs with hsame
      · obtain ⟨hsorted,hmem,hall⟩ := ih prev hes.2 hrest
        refine ⟨hsorted,fun e he => ⟨List.mem_cons_of_mem _ (hmem e he).1,(hmem e he).2⟩,
          fun e he => ?_⟩
        rcases List.mem_cons.mp he with rfl | he
        · exact .inr ⟨path,hsame,rfl⟩
        · exact hall e he
      · obtain ⟨hsorted,hmem,hall⟩ := ih (some path) hes.2 (by
          rintro path' ⟨⟩ e he
          exact hes.1 e he)
        have hnew : ∀ path' ∈ prev, path' < path := by
          intro path' hpath'
          rcases hprev path' hpath' _ List.mem_cons_self with h | ⟨path'',h,h'⟩
          · exact h
          · cases h
            cases h'
            exact absurd hpath' hsame
        refine ⟨?_,fun e he => ?_,fun e he => ?_⟩
        · rw [List.map_cons, List.pairwise_cons]
          refine ⟨fun name hname => ?_,hsorted⟩
          obtain ⟨e,he,rfl⟩ := List.mem_map.mp hname
          exact (hmem e he).2 path rfl
        · rcases List.mem_cons.mp he with rfl | he
          · exact ⟨List.mem_cons_self,hnew⟩
          · exact ⟨List.mem_cons_of_mem _ (hmem e he).1,
              fun path' hpath' => (hnew path' hpath').trans ((hmem e he).2 path rfl)⟩
        · rcases List.mem_cons.mp he with rfl | he
          · exact .inl List.mem_cons_self
          · rcases hall e he with h | ⟨path',⟨⟩,rfl⟩
            · exact .inl (List.mem_cons_of_mem _ h)
            · exact .inl List.mem_cons_self

variable (start delim : String)

def represent (info : ObjectInfo) : ListEntry :=
  match upTo delim.toList (info.key.toList.drop start.toList.length) with
  | none => .object info
  | some cut => .common (start ++ String.ofList cut)

theorem rollupEntries_eq (infos : List ObjectInfo) (prev : Option String)
    (hstart : ∀ info ∈ infos, startsWith info.key start = true) :
    rollupEntries start delim prev infos = distinct prev (infos.map (represent start delim)) := by
  induction infos generalizing prev with
  | nil => rfl
  | cons info infos ih =>
    have hrest := fun prev => ih prev (fun i hi => hstart i (List.mem_cons_of_mem _ hi))
    rw [rollupEntries, if_neg (by simp [hstart info List.mem_cons_self]), List.map_cons, represent]
    cases upTo delim.toList (info.key.toList.drop start.toList.length) with
    | none =>
      simp only [distinct]
      rw [hrest]
    | some cut =>
      simp only [distinct]
      split_ifs
      · rw [hrest]
      · rw [hrest]

variable {start delim} (hd : delim.toList ≠ [])

theorem represent_name (info : ObjectInfo) (rest : List Char)
    (hrest : info.key.toList = start.toList ++ rest) :
    (entryName (represent start delim info)).toList = start.toList ++ stem delim.toList rest := by
  have hdrop : info.key.toList.drop start.toList.length = rest := by rw [hrest, List.drop_left]
  rw [represent, hdrop, stem]
  cases upTo delim.toList rest with
  | none => exact hrest
  | some cut => simp [entryName]

include hd

theorem represent_after (a b : ObjectInfo) (ha : startsWith a.key start = true)
    (hb : startsWith b.key start = true) (hlt : a.key < b.key) :
    After (represent start delim a) (represent start delim b) := by
  obtain ⟨u,hu⟩ := (startsWith_iff _ _).mp ha
  obtain ⟨w,hw⟩ := (startsWith_iff _ _).mp hb
  rw [String.lt_iff_toList_lt, ← hu, ← hw, append_lt_append_iff] at hlt
  rcases stem_lt delim.toList hd u w hlt with h | ⟨cut,hcut,hcut'⟩
  · left
    rw [String.lt_iff_toList_lt, represent_name a u hu.symm, represent_name b w hw.symm,
      append_lt_append_iff]
    exact h
  · right
    refine ⟨start ++ String.ofList cut,?_,?_⟩
    · rw [represent, ← hu, List.drop_left, hcut]
    · rw [represent, ← hw, List.drop_left, hcut']

/-- The entry a key is to be listed by: itself where its rest has no delimiter,
and the text up to its first delimiter otherwise. -/
def Represents (start delim : String) (info : ObjectInfo) (e : ListEntry) : Prop :=
  ∃ rest, info.key.toList = start.toList ++ rest ∧
    (¬delim.toList <:+: rest ∧ e = .object info ∨
      ∃ cut, CutAt delim.toList rest cut ∧ e = .common (start ++ String.ofList cut))

theorem represents_iff (info : ObjectInfo) (hstart : startsWith info.key start = true)
    (e : ListEntry) : Represents start delim info e ↔ e = represent start delim info := by
  obtain ⟨rest,hrest⟩ := (startsWith_iff _ _).mp hstart
  rw [represent, ← hrest, List.drop_left]
  constructor
  · rintro ⟨rest',hrest',hcase⟩
    obtain rfl := List.append_cancel_left (hrest.trans hrest')
    cases hup : upTo delim.toList rest with
    | none =>
      rcases hcase with ⟨-,rfl⟩ | ⟨cut,⟨a,b,-,hin,-⟩,-⟩
      · rfl
      · exact absurd ⟨a,b,hin.symm⟩ ((upTo_none delim.toList hd rest).mp hup)
    | some cut =>
      have hcut := upTo_some delim.toList hd rest cut hup
      rcases hcase with ⟨hnot,-⟩ | ⟨cut',hcut',rfl⟩
      · obtain ⟨a,b,-,hin,-⟩ := hcut
        exact absurd ⟨a,b,hin.symm⟩ hnot
      · rw [hcut'.unique delim.toList hcut]
  · rintro rfl
    refine ⟨rest,hrest.symm,?_⟩
    cases hup : upTo delim.toList rest with
    | none => exact .inl ⟨(upTo_none delim.toList hd rest).mp hup,rfl⟩
    | some cut => exact .inr ⟨cut,upTo_some delim.toList hd rest cut hup,rfl⟩

omit hd in
theorem byKey_strict (infos : List ObjectInfo) (hdistinct : (infos.map ObjectInfo.key).Nodup) :
    (byKey infos).Pairwise (fun a b => a.key < b.key) := by
  have hle : (byKey infos).Pairwise (fun a b => a.key ≤ b.key) :=
    haveI : Std.Total (fun a b : ObjectInfo => a.key ≤ b.key) := ⟨fun a b => le_total a.key b.key⟩
    haveI : IsTrans ObjectInfo (fun a b => a.key ≤ b.key) := ⟨fun _ _ _ => le_trans⟩
    List.pairwise_insertionSort _ infos
  have hne : (byKey infos).Pairwise (fun a b => a.key ≠ b.key) := by
    have hperm := (List.perm_insertionSort (fun a b => a.key ≤ b.key) infos).map ObjectInfo.key
    exact List.pairwise_map.mp (hperm.nodup_iff.mpr hdistinct)
  exact (hle.and hne).imp fun h => lt_of_le_of_ne h.1 h.2

end Entries

open ListPages

theorem findIdx_past (l r : List ListEntry) (hsorted : ((l ++ r).map entryName).Pairwise (· < ·))
    (hl : l ≠ []) (c : String) (hc : l.getLast?.map entryName = some c) :
    (l ++ r).findIdx (fun e => c < entryName e) = l.length := by
  obtain ⟨l,last,rfl⟩ := (List.eq_nil_or_concat l).resolve_left hl
  rw [List.concat_eq_append] at hsorted hc ⊢
  obtain rfl : entryName last = c := by simpa using hc
  rw [List.map_append, List.pairwise_append] at hsorted
  obtain ⟨hleft,-,hcross⟩ := hsorted
  have hbefore : ∀ e ∈ l ++ [last], ¬entryName last < entryName e := by
    intro e he
    rw [List.map_append, List.pairwise_append] at hleft
    rcases List.mem_append.mp he with he | he
    · exact lt_asymm (hleft.2.2 _ (List.mem_map_of_mem he) _ (by simp))
    · rw [List.mem_singleton.mp he]
      exact lt_irrefl _
  have hnone : (l ++ [last]).findIdx (fun e => entryName last < entryName e) =
      (l ++ [last]).length := by
    rw [List.findIdx_eq_length]
    intro e he
    simpa using hbefore e he
  rw [List.findIdx_append, hnone, if_neg (lt_irrefl _)]
  cases r with
  | nil => simp
  | cons e r =>
    have hlt : entryName last < entryName e :=
      hcross _ (List.mem_map_of_mem (by simp)) _ (by simp)
    rw [List.findIdx_cons, decide_eq_true hlt]
    simp

theorem rolledPage_after (l r : List ListEntry) (m : ℕ) (hm : 0 < m)
    (hsorted : ((l ++ r).map entryName).Pairwise (· < ·)) :
    rolledPage (l ++ r) (l.getLast?.map entryName) m =
      ⟨r.take m,decide (m < r.length),
        if m < r.length then ((r.take m).getLast?).map entryName else none⟩ := by
  have hstart : (l.getLast?.map entryName).elim 0
      (fun c => (l ++ r).findIdx (fun e => c < entryName e)) = l.length := by
    by_cases hl : l = []
    · subst hl
      rfl
    · obtain ⟨last,hlast⟩ := Option.isSome_iff_exists.mp (List.getLast?_isSome.mpr hl)
      rw [hlast, Option.map_some, Option.elim_some]
      exact findIdx_past l r hsorted hl _ (by rw [hlast, Option.map_some])
  simp only [rolledPage, hstart, List.length_append, List.drop_left]
  by_cases hmore : m < r.length
  · have hstop : min (l.length+m) (l.length+r.length) = l.length+m := by omega
    have hget : (l ++ r)[l.length+m-1]? = (r.take m).getLast? := by
      rw [List.getLast?_eq_getElem?, List.length_take, Nat.min_eq_left hmore.le,
        List.getElem?_take_of_lt (by omega), List.getElem?_append_right (by omega)]
      congr 1
      omega
    rw [hstop, hget, Nat.add_sub_cancel_left]
    simp
  · have hstop : min (l.length+m) (l.length+r.length) = l.length+r.length := by omega
    rw [hstop]
    simp [hmore, List.take_of_length_le (Nat.le_of_not_lt hmore)]

theorem rolled_paged (entries : List ListEntry) (hsorted : (entries.map entryName).Pairwise (· < ·))
    (m : ℕ) (hm : 0 < m) (l r : List ListEntry) (hsplit : entries = l ++ r) :
    Paged (fun cursor => rolledPage entries cursor m) (l.getLast?.map entryName) r := by
  subst hsplit
  induction hlen : r.length using Nat.strong_induction_on generalizing l r with
  | _ len ih =>
    have hpage := rolledPage_after l r m hm hsorted
    by_cases hmore : m < r.length
    · obtain ⟨last,hlast⟩ : ∃ last, (r.take m).getLast? = some last :=
        Option.isSome_iff_exists.mp (by
          rw [List.getLast?_isSome, ← List.length_pos_iff, List.length_take]; omega)
      have happend : l ++ r.take m ++ r.drop m = l ++ r := by
        rw [List.append_assoc, List.take_append_drop]
      have hrest := ih (r.drop m).length (by rw [List.length_drop]; omega) (l ++ r.take m)
        (r.drop m) (by rwa [happend]) rfl
      rw [happend, List.getLast?_append, hlast, Option.some_or, Option.map_some] at hrest
      have hpaged := Paged.more (l.getLast?.map entryName) (entryName last) _
        (by simp [hpage, hmore, hlast]) hrest
      rw [hpage, List.take_append_drop] at hpaged
      exact hpaged
    · have hlast : Paged (fun cursor => rolledPage (l ++ r) cursor m) (l.getLast?.map entryName) _ :=
        Paged.last _ (by simp [hpage, hmore])
      rw [hpage, List.take_of_length_le (Nat.le_of_not_lt hmore)] at hlast
      exact hlast

theorem listPage_rolled (c : XlMeta.MetaCodec) (o : VoteOrder) (bucket pre delim : String)
    (cursor : Option String) (m : ℕ) (sets : List (List Disk)) :
    listPage c o bucket pre (some delim) cursor m sets =
      rolledPage (rollupEntries pre delim none (byKey (list c o bucket pre none 0 sets))) cursor m :=
  rfl

section Listing

variable (start delim : String) (hd : delim ≠ "") (infos : List ObjectInfo)
  (hdistinct : (infos.map ObjectInfo.key).Nodup)
  (hstart : ∀ info ∈ infos, startsWith info.key start = true)

include hd hdistinct hstart

/-- The entries of a rolled-up listing are in strict order of their names, each
key is represented by one of them, and the pages are the entries in order. -/
theorem rolled_listing (m : ℕ) (hm : 0 < m) :
    ((rollupEntries start delim none (byKey infos)).map entryName).Pairwise (· < ·) ∧
    (∀ info ∈ infos, ∃ e, (∀ e', Represents start delim info e' ↔ e' = e) ∧
      (rollupEntries start delim none (byKey infos)).count e = 1) ∧
    (∀ e ∈ rollupEntries start delim none (byKey infos),
      ∃ info ∈ infos, Represents start delim info e) ∧
    Paged (fun cursor => rolledPage (rollupEntries start delim none (byKey infos)) cursor m) none
      (rollupEntries start delim none (byKey infos)) ∧
    ∀ (c : XlMeta.MetaCodec) (o : VoteOrder) (bucket : String) (sets : List (List Disk)),
      list c o bucket start none 0 sets = infos →
      Paged (fun cursor => listPage c o bucket start (some delim) cursor m sets) none
        (rollupEntries start delim none (byKey infos)) := by
  have hd' : delim.toList ≠ [] := by simpa using hd
  have hmem : ∀ info, info ∈ byKey infos ↔ info ∈ infos :=
    fun info => (List.perm_insertionSort _ infos).mem_iff
  have hstart' : ∀ info ∈ byKey infos, startsWith info.key start = true :=
    fun info hinfo => hstart info ((hmem info).mp hinfo)
  have hafter : ((byKey infos).map (represent start delim)).Pairwise After := by
    rw [List.pairwise_map]
    apply (byKey_strict infos hdistinct).imp_of_mem
    intro a b ha hb hlt
    exact represent_after hd' a b (hstart' a ha) (hstart' b hb) hlt
  have hentries := rollupEntries_eq start delim (byKey infos) none hstart'
  obtain ⟨hsorted,hfrom,hall⟩ := distinct_spec _ none hafter (by simp)
  rw [← hentries] at hsorted hfrom hall
  have hnodup : (rollupEntries start delim none (byKey infos)).Nodup :=
    List.Nodup.of_map entryName (hsorted.imp fun h => h.ne)
  have hpaged := rolled_paged _ hsorted m hm [] _ rfl
  refine ⟨hsorted,fun info hinfo => ?_,fun e he => ?_,hpaged,fun c o bucket sets hlist => ?_⟩
  · refine ⟨represent start delim info,represents_iff hd' info (hstart info hinfo),?_⟩
    rcases hall _ (List.mem_map_of_mem ((hmem info).mpr hinfo)) with h | ⟨path,hpath,-⟩
    · exact List.count_eq_one_of_mem hnodup h
    · cases hpath
  · obtain ⟨info,hinfo,rfl⟩ := List.mem_map.mp (hfrom e he).1
    exact ⟨info,(hmem info).mp hinfo,(represents_iff hd' info (hstart' info hinfo) _).mpr rfl⟩
  · simp only [listPage_rolled, hlist]
    exact hpaged

end Listing

theorem two_below_a : (["a/x","a/y","b"].map (sampleInfo · 1)).map ObjectInfo.key =
      ["a/x","a/y","b"] ∧
    Paged (fun cursor => rolledPage (rollupEntries "" "/" none
        (byKey (["a/x","a/y","b"].map (sampleInfo · 1)))) cursor 1) none
      [.common "a/",.object (sampleInfo "b" 1)] := by
  have hentries : rollupEntries "" "/" none (byKey (["a/x","a/y","b"].map (sampleInfo · 1))) =
      [.common "a/",.object (sampleInfo "b" 1)] := by decide +kernel
  have hpaged := (rolled_listing "" "/" (by decide) (["a/x","a/y","b"].map (sampleInfo · 1))
    (by decide +kernel) (by decide +kernel) 1 (by decide)).2.2.2.1
  rw [hentries] at hpaged ⊢
  exact ⟨rfl,hpaged⟩

end Openlake.Rollup
