import Mathlib

/-!
# Doubly linked lists in arrays

The cells of the list are the indices of two arrays, which hold the cell before
and the cell after each, with `nil` where there is none. `Spells` says that the
arrays hold a given list. Attaching at the end and detaching a cell are the
corresponding changes of the list, and no index they use is out of bounds.
-/

set_option autoImplicit false

namespace Lib.LinkedList

structure Links where
  prev : List ℕ
  next : List ℕ
  head : ℕ
  tail : ℕ
  deriving DecidableEq, Repr

/-- A write to an array, or nothing if the index is out of bounds. -/
def store (xs : List ℕ) (i v : ℕ) : Option (List ℕ) := if i < xs.length then some (xs.set i v) else none

section Operations

variable (nil : ℕ)

def empty (size : ℕ) : Links := ⟨List.replicate size nil,List.replicate size nil,nil,nil⟩

def attachTail (l : Links) (i : ℕ) : Option Links := do
  let prev ← store l.prev i l.tail
  let next ← store l.next i nil
  if l.tail ≠ nil then
    let next ← store next l.tail i
    return { l with prev := prev, next := next, tail := i }
  else return { prev := prev, next := next, head := i, tail := i }

def detach (l : Links) (i : ℕ) : Option Links := do
  let p ← l.prev[i]?
  if p = nil ∧ l.head ≠ i then return l
  else
    let n ← l.next[i]?
    let l ← if p ≠ nil then (store l.next p n).map (fun next => { l with next := next })
      else some { l with head := n }
    let l ← if n ≠ nil then (store l.prev n p).map (fun prev => { l with prev := prev })
      else some { l with tail := p }
    let prev ← store l.prev i nil
    let next ← store l.next i nil
    return { l with prev := prev, next := next }

/-- The cells from one on, along `next`. -/
def walk (l : Links) : ℕ → ℕ → List ℕ
  | 0,_ => []
  | fuel+1,i => if i = nil then [] else i::walk l fuel ((l.next[i]?).getD nil)

/-- The arrays, of a given size, hold the list. -/
structure Spells (size : ℕ) (l : Links) (cells : List ℕ) : Prop where
  lengths : l.prev.length = size ∧ l.next.length = size
  nodup : cells.Nodup
  inside : ∀ i ∈ cells, i < size
  absent : ∀ i, i < size → i ≠ nil
  head : l.head = cells.headD nil
  tail : l.tail = cells.getLastD nil
  linked : ∀ a i b, cells = a ++ i::b →
    l.prev[i]? = some (a.getLastD nil) ∧ l.next[i]? = some (b.headD nil)
  loose : ∀ i, i < size → i ∉ cells → l.prev[i]? = some nil ∧ l.next[i]? = some nil

end Operations

theorem store_of_lt (xs : List ℕ) (i v : ℕ) (h : i < xs.length) : store xs i v = some (xs.set i v) :=
  if_pos h

theorem getElem_set_self (xs : List ℕ) (i v : ℕ) (h : i < xs.length) :
    (xs.set i v)[i]? = some v := by
  rw [List.getElem?_set_self h]

theorem getElem_set_ne (xs : List ℕ) (i j v : ℕ) (h : i ≠ j) : (xs.set i v)[j]? = xs[j]? :=
  List.getElem?_set_ne h

section Spelled

variable {nil size x : ℕ} {l : Links} {cells : List ℕ}

theorem empty_spells (h : size ≤ nil) : Spells nil size (empty nil size) [] where
  lengths := by simp [empty]
  nodup := .nil
  inside := by simp
  absent := fun i hi => by omega
  head := rfl
  tail := rfl
  linked := by simp
  loose := fun i hi _ => by simp [empty, hi]

theorem getLastD_mem (a : List ℕ) (h : a ≠ []) : a.getLastD nil ∈ a := by
  rw [List.getLastD_eq_getLast?, List.getLast?_eq_some_getLast h]
  exact List.getLast_mem h

theorem getLastD_append (a b : List ℕ) (h : b ≠ []) :
    (a ++ b).getLastD nil = b.getLastD nil := by
  rw [List.getLastD_eq_getLast?, List.getLastD_eq_getLast?, List.getLast?_append_of_ne_nil _ h]

theorem getLastD_cons (y : ℕ) (b : List ℕ) (h : b ≠ []) :
    (y::b).getLastD nil = b.getLastD nil := getLastD_append [y] b h

variable {a b : List ℕ} {i : ℕ}

theorem split_nodup (h : cells.Nodup) (hcells : cells = a ++ i::b) :
    i ∉ a ∧ i ∉ b := by
  subst hcells
  have hmid := List.nodup_middle.mp h
  rw [List.nodup_cons, List.mem_append, not_or] at hmid
  exact hmid.1

theorem Spells.tail_mem_split (h : Spells nil size l cells) (hcells : cells = a ++ b)
    (hb : b ≠ []) : l.tail ∈ b := by
  rw [h.tail, hcells, getLastD_append a b hb]
  exact getLastD_mem b hb

theorem Spells.tail_mem (h : Spells nil size l cells) (hne : cells ≠ []) : l.tail ∈ cells := by
  rw [h.tail]
  exact getLastD_mem cells hne

theorem Spells.ne_nil (h : Spells nil size l cells) (hi : i ∈ cells) : i ≠ nil :=
  h.absent i (h.inside i hi)

theorem Spells.tail_eq_nil (h : Spells nil size l cells) : l.tail = nil ↔ cells = [] := by
  constructor
  · intro ht
    by_contra hne
    exact h.ne_nil (h.tail_mem hne) ht
  · rintro rfl
    exact h.tail

def attached (nil : ℕ) (l : Links) (x : ℕ) : Links where
  prev := l.prev.set x l.tail
  next := if l.tail = nil then l.next.set x nil else (l.next.set x nil).set l.tail x
  head := if l.tail = nil then x else l.head
  tail := x

theorem attachTail_eq (hprev : x < l.prev.length) (hnext : x < l.next.length)
    (htail : l.tail ≠ nil → l.tail < l.next.length) :
    attachTail nil l x = some (attached nil l x) := by
  rw [attachTail, store_of_lt _ _ _ hprev, store_of_lt _ _ _ hnext]
  by_cases ht : l.tail = nil
  · simp [attached, ht]
  · simp [attached, ht, store_of_lt (l.next.set x nil) l.tail x (by simpa using htail ht)]

theorem Spells.tail_concat (h : Spells nil size l cells) {a : List ℕ}
    (hcells : cells = a ++ [i]) : l.tail = i := by
  rw [h.tail, hcells, List.getLastD_concat]

/-- Attaching a loose cell puts it at the end of the list. -/
theorem attachTail_spells (h : Spells nil size l cells) (hx : x < size) (hnew : x ∉ cells) :
    ∃ l', attachTail nil l x = some l' ∧ Spells nil size l' (cells ++ [x]) := by
  obtain ⟨hprev,hnext⟩ := h.lengths
  have htail : l.tail ≠ nil → l.tail ∈ cells := fun ht =>
    h.tail_mem fun hc => ht (h.tail_eq_nil.mpr hc)
  refine ⟨_,attachTail_eq (by omega) (by omega) fun ht => by
    rw [hnext]
    exact h.inside _ (htail ht),?_⟩
  have hother : ∀ i, i ≠ x → i ≠ l.tail → (attached nil l x).next[i]? = l.next[i]? := by
    intro i hix hit
    rw [attached]
    split_ifs
    · exact getElem_set_ne _ _ _ _ hix.symm
    · rw [getElem_set_ne _ _ _ _ hit.symm, getElem_set_ne _ _ _ _ hix.symm]
  have hlast : (attached nil l x).next[x]? = some nil := by
    rw [attached]
    split_ifs with ht
    · exact getElem_set_self _ _ _ (by omega)
    · have hne : l.tail ≠ x := fun he => hnew (he ▸ htail ht)
      rw [getElem_set_ne _ _ _ _ hne, getElem_set_self _ _ _ (by omega)]
  constructor
  case lengths =>
    refine ⟨by simp [attached, hprev],?_⟩
    rw [attached]
    split_ifs <;> simp [hnext]
  case nodup => exact h.nodup.append (List.nodup_singleton x) (by simpa using hnew)
  case inside =>
    intro i hi
    rcases List.mem_append.mp hi with hi | hi
    · exact h.inside i hi
    · rwa [List.mem_singleton.mp hi]
  case absent => exact h.absent
  case head =>
    rw [attached]
    by_cases hc : cells = []
    · simp [hc, h.tail_eq_nil.mpr hc]
    · show (if l.tail = nil then x else l.head) = _
      rw [if_neg (mt h.tail_eq_nil.mp hc), h.head]
      cases cells with
      | nil => exact absurd rfl hc
      | cons y ys => rfl
  case tail => simp [attached]
  case linked =>
    intro a i b hab
    rcases List.eq_nil_or_concat b with rfl | ⟨b,y,rfl⟩
    · obtain ⟨rfl,hi⟩ := List.append_inj' hab rfl
      obtain rfl : x = i := by simpa using hi
      refine ⟨?_,hlast⟩
      rw [attached, getElem_set_self _ _ _ (by omega), h.tail]
    · rw [List.concat_eq_append, ← List.cons_append, ← List.append_assoc] at hab
      obtain ⟨hcells,hy⟩ := List.append_inj' hab rfl
      obtain rfl : x = y := by simpa using hy
      have hix : i ≠ x := by
        rintro rfl
        exact hnew (by simp [hcells])
      obtain ⟨hp,hn⟩ := h.linked a i b hcells
      refine ⟨by rw [attached, getElem_set_ne _ _ _ _ hix.symm, hp],?_⟩
      cases b with
      | nil =>
        have ht : l.tail = i := h.tail_concat hcells
        have hnil : i ≠ nil := h.ne_nil (by simp [hcells])
        rw [attached, ht, if_neg hnil, getElem_set_self]
        · rfl
        · simp only [List.length_set, hnext]
          exact h.inside i (by simp [hcells])
      | cons y b =>
        have hit : i ≠ l.tail := by
          rintro rfl
          exact (split_nodup h.nodup hcells).2 (h.tail_mem_split
            (show cells = (a ++ [l.tail]) ++ (y::b) by simpa using hcells) (by simp))
        rw [hother i hix hit, hn]
        rfl
  case loose =>
    intro i hi hmem
    have hix : i ≠ x := by
      rintro rfl
      exact hmem (by simp)
    have hcells : i ∉ cells := fun hc => hmem (List.mem_append_left _ hc)
    have hit : i ≠ l.tail := by
      rintro rfl
      exact hcells (htail (h.absent _ hi))
    obtain ⟨hp,hn⟩ := h.loose i hi hcells
    exact ⟨by rw [attached, getElem_set_ne _ _ _ _ hix.symm, hp],by rw [hother i hix hit, hn]⟩

def detached (nil : ℕ) (l : Links) (x p n : ℕ) : Links where
  prev := (if n = nil then l.prev else l.prev.set n p).set x nil
  next := (if p = nil then l.next else l.next.set p n).set x nil
  head := if p = nil then n else l.head
  tail := if n = nil then p else l.tail

theorem detach_eq {p n : ℕ} (hp : l.prev[x]? = some p) (hn : l.next[x]? = some n)
    (hhead : p = nil → l.head = x) (hpin : p ≠ nil → p < l.next.length)
    (hnin : n ≠ nil → n < l.prev.length) : detach nil l x = some (detached nil l x p n) := by
  have hx : x < l.prev.length := (List.getElem?_eq_some_iff.mp hp).1
  have hx' : x < l.next.length := (List.getElem?_eq_some_iff.mp hn).1
  have hstay : ¬(p = nil ∧ l.head ≠ x) := fun h => h.2 (hhead h.1)
  rw [detach, hp, Option.bind_eq_bind, Option.bind_some, if_neg hstay, hn, Option.bind_some]
  by_cases hpn : p = nil <;> by_cases hnn : n = nil <;>
    simp [detached, hpn, hnn, store, hx, hx', hpin, hnin]

theorem headD_mem (b : List ℕ) (h : b ≠ []) : b.headD nil ∈ b := by
  cases b with
  | nil => exact absurd rfl h
  | cons y b => exact List.mem_cons_self

theorem left_mem (hcells : cells = a ++ x::b) (ha : a ≠ []) :
    a.getLastD nil ∈ cells := by
  rw [hcells]
  exact List.mem_append_left _ (getLastD_mem a ha)

theorem right_mem (hcells : cells = a ++ x::b) (hb : b ≠ []) :
    b.headD nil ∈ cells := by
  rw [hcells]
  exact List.mem_append_right _ (List.mem_cons_of_mem _ (headD_mem b hb))

section Detach

variable {a b : List ℕ} (h : Spells nil size l cells) (hcells : cells = a ++ x::b)

include h hcells

theorem Spells.left_eq_nil : a.getLastD nil = nil ↔ a = [] := by
  constructor
  · intro hp
    by_contra hne
    exact h.ne_nil (left_mem hcells hne) hp
  · rintro rfl
    rfl

theorem Spells.right_eq_nil : b.headD nil = nil ↔ b = [] := by
  constructor
  · intro hn
    by_contra hne
    exact h.ne_nil (right_mem hcells hne) hn
  · rintro rfl
    rfl

variable {i : ℕ}

theorem detached_prev (hix : i ≠ x) :
    (detached nil l x (a.getLastD nil) (b.headD nil)).prev[i]? =
      if b ≠ [] ∧ i = b.headD nil then some (a.getLastD nil) else l.prev[i]? := by
  rw [detached, getElem_set_ne _ _ _ _ hix.symm]
  by_cases hb : b = []
  · rw [if_pos ((h.right_eq_nil hcells).mpr hb), if_neg fun hc => hc.1 hb]
  · rw [if_neg (mt (h.right_eq_nil hcells).mp hb)]
    by_cases hi : i = b.headD nil
    · rw [if_pos ⟨hb,hi⟩, hi, getElem_set_self]
      rw [h.lengths.1]
      exact h.inside _ (right_mem hcells hb)
    · rw [if_neg fun hc => hi hc.2, getElem_set_ne _ _ _ _ (Ne.symm hi)]

theorem detached_next (hix : i ≠ x) :
    (detached nil l x (a.getLastD nil) (b.headD nil)).next[i]? =
      if a ≠ [] ∧ i = a.getLastD nil then some (b.headD nil) else l.next[i]? := by
  rw [detached, getElem_set_ne _ _ _ _ hix.symm]
  by_cases ha : a = []
  · rw [if_pos ((h.left_eq_nil hcells).mpr ha), if_neg fun hc => hc.1 ha]
  · rw [if_neg (mt (h.left_eq_nil hcells).mp ha)]
    by_cases hi : i = a.getLastD nil
    · rw [if_pos ⟨ha,hi⟩, hi, getElem_set_self]
      rw [h.lengths.2]
      exact h.inside _ (left_mem hcells ha)
    · rw [if_neg fun hc => hi hc.2, getElem_set_ne _ _ _ _ (Ne.symm hi)]

/-- A cell after the detached one keeps its neighbours, but for the first. -/
theorem detached_after {c d : List ℕ} (hb : b = c ++ i::d) :
    (detached nil l x (a.getLastD nil) (b.headD nil)).prev[i]? = some ((a ++ c).getLastD nil) ∧
      (detached nil l x (a.getLastD nil) (b.headD nil)).next[i]? = some (d.headD nil) := by
  subst hb
  have hsplit : cells = (a ++ x::c) ++ i::d := by simpa using hcells
  obtain ⟨hleft,-⟩ := split_nodup h.nodup hsplit
  obtain ⟨hp,hn⟩ := h.linked _ _ _ hsplit
  rw [List.mem_append, List.mem_cons, not_or, not_or] at hleft
  obtain ⟨hia,hix,hic⟩ := hleft
  constructor
  · rw [detached_prev h hcells hix]
    cases c with
    | nil => simp
    | cons y c =>
      have hiy : i ≠ y := fun he => hic (by simp [he])
      rw [if_neg fun hc => hiy hc.2, hp, getLastD_append _ _ (by simp),
        getLastD_append _ _ (by simp), getLastD_cons _ _ (by simp)]
  · rw [detached_next h hcells hix, if_neg, hn]
    rintro ⟨hne,rfl⟩
    exact hia (getLastD_mem a hne)

/-- A cell before the detached one keeps its neighbours, but for the last. -/
theorem detached_before {c d : List ℕ} (ha : a = c ++ i::d) :
    (detached nil l x (a.getLastD nil) (b.headD nil)).prev[i]? = some (c.getLastD nil) ∧
      (detached nil l x (a.getLastD nil) (b.headD nil)).next[i]? = some ((d ++ b).headD nil) := by
  subst ha
  have hsplit : cells = c ++ i::(d ++ x::b) := by simpa using hcells
  obtain ⟨-,hright⟩ := split_nodup h.nodup hsplit
  obtain ⟨hp,hn⟩ := h.linked _ _ _ hsplit
  rw [List.mem_append, List.mem_cons, not_or, not_or] at hright
  obtain ⟨hid,hix,hib⟩ := hright
  constructor
  · rw [detached_prev h hcells hix, if_neg, hp]
    rintro ⟨hne,rfl⟩
    exact hib (headD_mem b hne)
  · rw [detached_next h hcells hix]
    cases d with
    | nil => simp
    | cons y d =>
      have hlast : (c ++ i::y::d).getLastD nil ∈ y::d := by
        rw [getLastD_append _ _ (by simp), getLastD_cons _ _ (by simp)]
        exact getLastD_mem _ (by simp)
      have hne : ¬(c ++ i::y::d ≠ [] ∧ i = (c ++ i::y::d).getLastD nil) := fun hc =>
        hid (hc.2 ▸ hlast)
      rw [if_neg hne, hn]
      rfl

/-- Detaching a cell takes it out of the list. -/
theorem detach_spells : ∃ l', detach nil l x = some l' ∧ Spells nil size l' (a ++ b) := by
  obtain ⟨hprev,hnext⟩ := h.lengths
  obtain ⟨hp,hn⟩ := h.linked a x b hcells
  have hnodup : (x::(a ++ b)).Nodup := List.nodup_middle.mp (hcells ▸ h.nodup)
  have hx : x < size := h.inside x (by simp [hcells])
  refine ⟨_,detach_eq hp hn ?_ ?_ ?_,?_⟩
  · intro hpn
    rw [h.head, hcells, (h.left_eq_nil hcells).mp hpn]
    rfl
  · intro hpn
    rw [hnext]
    exact h.inside _ (left_mem hcells (mt (h.left_eq_nil hcells).mpr hpn))
  · intro hnn
    rw [hprev]
    exact h.inside _ (right_mem hcells (mt (h.right_eq_nil hcells).mpr hnn))
  constructor
  case lengths =>
    rw [detached]
    constructor <;> (simp only; split_ifs <;> simp [hprev, hnext])
  case nodup => exact (List.nodup_cons.mp hnodup).2
  case inside =>
    intro i hi
    apply h.inside i
    rw [hcells]
    rcases List.mem_append.mp hi with hi | hi
    · exact List.mem_append_left _ hi
    · exact List.mem_append_right _ (List.mem_cons_of_mem _ hi)
  case absent => exact h.absent
  case head =>
    show (if a.getLastD nil = nil then b.headD nil else l.head) = _
    by_cases ha : a = []
    · rw [if_pos ((h.left_eq_nil hcells).mpr ha), ha]
      rfl
    · rw [if_neg (mt (h.left_eq_nil hcells).mp ha), h.head, hcells]
      cases a with
      | nil => exact absurd rfl ha
      | cons y a => rfl
  case tail =>
    show (if b.headD nil = nil then a.getLastD nil else l.tail) = _
    by_cases hb : b = []
    · rw [if_pos ((h.right_eq_nil hcells).mpr hb), hb, List.append_nil]
    · rw [if_neg (mt (h.right_eq_nil hcells).mp hb), h.tail, hcells, getLastD_append _ _ hb,
        getLastD_append _ _ (by simp), getLastD_cons _ _ hb]
  case linked =>
    intro c i d hcd
    rcases List.append_eq_append_iff.mp hcd with ⟨c',rfl,hb⟩ | ⟨c',ha,hd⟩
    · exact detached_after h hcells hb
    · cases c' with
      | nil =>
        rw [List.append_nil] at ha
        subst ha
        simpa using detached_after h hcells (c := []) (by simpa using hd.symm)
      | cons y c' =>
        obtain ⟨rfl,rfl⟩ := List.cons.inj hd
        exact detached_before h hcells ha
  case loose =>
    intro i hi hmem
    by_cases hix : i = x
    · rw [hix]
      constructor <;> (rw [detached, getElem_set_self]; split_ifs <;> simp [hprev, hnext, hx])
    · have hcell : i ∉ cells := by
        rw [hcells]
        intro hc
        apply hmem
        simpa [hix] using hc
      obtain ⟨hp,hn⟩ := h.loose i hi hcell
      rw [detached_prev h hcells hix, detached_next h hcells hix, if_neg, if_neg]
      · exact ⟨hp,hn⟩
      · rintro ⟨hne,rfl⟩
        exact hcell (left_mem hcells hne)
      · rintro ⟨hne,rfl⟩
        exact hcell (right_mem hcells hne)

end Detach

theorem walk_suffix (h : Spells nil size l cells) (a b : List ℕ) (hcells : cells = a ++ b)
    (fuel : ℕ) (hfuel : b.length ≤ fuel) : walk nil l fuel (b.headD nil) = b := by
  induction b generalizing a fuel with
  | nil => cases fuel <;> simp [walk]
  | cons i b ih =>
    obtain ⟨fuel,rfl⟩ := Nat.exists_eq_add_of_lt (show 0 < fuel by simp at hfuel; omega)
    obtain ⟨-,hn⟩ := h.linked a i b hcells
    have hi : i ≠ nil := h.ne_nil (by simp [hcells])
    rw [Nat.zero_add, walk, List.headD_cons, if_neg hi, hn, Option.getD_some,
      ih (a ++ [i]) (by simpa using hcells) fuel (by simp at hfuel; omega)]

/-- Following `next` from the head visits the list. -/
theorem Spells.walk_eq (h : Spells nil size l cells) : walk nil l size l.head = cells := by
  have hlen : cells.length ≤ size := by
    have hsub : cells ⊆ List.range size := fun i hi => List.mem_range.mpr (h.inside i hi)
    simpa using (h.nodup.subperm hsub).length_le
  rw [h.head]
  exact walk_suffix h [] cells rfl size hlen

/-- In the list, `prev` and `next` are inverse to each other. -/
theorem Spells.next_iff_prev (h : Spells nil size l cells) (i j : ℕ) (hi : i ∈ cells)
    (hj : j ∈ cells) : l.next[i]? = some j ↔ l.prev[j]? = some i := by
  constructor
  · intro hij
    obtain ⟨a,b,hcells⟩ := List.append_of_mem hi
    rw [(h.linked a i b hcells).2] at hij
    cases b with
    | nil => exact absurd (Option.some.inj hij).symm (h.ne_nil hj)
    | cons y b =>
      obtain rfl : y = j := Option.some.inj hij
      rw [(h.linked (a ++ [i]) y b (by simpa using hcells)).1, List.getLastD_concat]
  · intro hji
    obtain ⟨a,b,hcells⟩ := List.append_of_mem hj
    rw [(h.linked a j b hcells).1] at hji
    rcases List.eq_nil_or_concat a with rfl | ⟨a,y,rfl⟩
    · exact absurd (Option.some.inj hji).symm (h.ne_nil hi)
    · rw [List.concat_eq_append, List.getLastD_concat] at hji
      obtain rfl := Option.some.inj hji
      rw [(h.linked a y (j::b) (by simpa using hcells)).2]
      rfl

end Spelled

end Lib.LinkedList
