import Openlake.Lib.LinkedList
import Openlake.Lib.Tally

/-!
# The pool of slots

A slot is free, reserved until a deadline, or bound to a key. Bound slots are in
a linked list from the least to the most recently used. `none` is a panic: an
index out of bounds, or a slot in the list that has no binding. The clock and the
order in which the map of reservations is visited are inputs.

The three kinds share out the slots of the pool, and the two maps are inverse to
each other. Each call is said by what it does to the three lists; that it does
not panic is part of it.
-/

set_option autoImplicit false

namespace Openlake.Slots
open Lib.LinkedList Lib.Tally

def nilSlot : ℕ := 2^32-1

structure SlotPool (K : Type) where
  free : List ℕ
  byHash : K → Option ℕ
  bySlot : ℕ → Option K
  pending : List (ℕ × ℕ)
  reserveTtl : ℕ
  lru : Links

section Pool

variable {K : Type} [DecidableEq K]

def SlotPool.new (slotCount reserveTtl : ℕ) : SlotPool K where
  free := List.range slotCount
  byHash _ := none
  bySlot _ := none
  pending := []
  reserveTtl := reserveTtl
  lru := empty nilSlot slotCount

namespace SlotPool

def touch (pool : SlotPool K) (slot : ℕ) : Option (SlotPool K) := do
  let lru ← detach nilSlot pool.lru slot
  let lru ← attachTail nilSlot lru slot
  return { pool with lru := lru }

def reclaimExpired (order : IterOrder (ℕ × ℕ)) (now : ℕ) (pool : SlotPool K) : SlotPool K :=
  { pool with
    free := pool.free ++
      ((order.arrange pool.pending).filter (fun e => ¬now < e.2)).map Prod.fst
    pending := pool.pending.filter (fun e => now < e.2) }

def unbind (pool : SlotPool K) (slot : ℕ) (hash : K) : Option (SlotPool K) := do
  let lru ← detach nilSlot pool.lru slot
  return { pool with bySlot := Function.update pool.bySlot slot none,
                     byHash := Function.update pool.byHash hash none, lru := lru }

def evictOne (pool : SlotPool K) : Option (Option ℕ × SlotPool K) :=
  let slot := pool.lru.head
  if slot = nilSlot then some (none,pool)
  else do
    let hash ← pool.bySlot slot
    let pool ← pool.unbind slot hash
    return (some slot,pool)

def takeSlot (pool : SlotPool K) : Option (Option ℕ × SlotPool K) :=
  match pool.free with
  | slot::free => some (some slot,{ pool with free := free })
  | [] => pool.evictOne

def pend (pool : SlotPool K) (slot deadline : ℕ) : SlotPool K :=
  { pool with pending := (slot,deadline)::pool.pending.filter (fun e => e.1 ≠ slot) }

@[simp] theorem pend_free (pool : SlotPool K) (slot deadline : ℕ) :
    (pool.pend slot deadline).free = pool.free := rfl

def reserveSlots (now : ℕ) : ℕ → SlotPool K → Option (List ℕ × SlotPool K)
  | 0,pool => some ([],pool)
  | count+1,pool => do
    match ← pool.takeSlot with
    | (none,pool) => return ([],pool)
    | (some slot,pool) =>
      let (out,pool) ← reserveSlots now count (pool.pend slot (now+pool.reserveTtl))
      return (slot::out,pool)

def reserve (order : IterOrder (ℕ × ℕ)) (now count : ℕ) (pool : SlotPool K) :
    Option (List ℕ × SlotPool K) :=
  reserveSlots now count
    (if pool.free.length < count then pool.reclaimExpired order now else pool)

def unpend (pool : SlotPool K) (slot : ℕ) : SlotPool K :=
  { pool with pending := pool.pending.filter (fun e => e.1 ≠ slot) }

/-- The slot a key was bound to before is free again. -/
def rebind (pool : SlotPool K) (slot : ℕ) (hash : K) : Option (SlotPool K) :=
  let bySlot := Function.update pool.bySlot slot (some hash)
  let byHash := Function.update pool.byHash hash (some slot)
  match pool.byHash hash with
  | some prevSlot => do
    let lru ← detach nilSlot pool.lru prevSlot
    return { pool with bySlot := Function.update bySlot prevSlot none, byHash := byHash,
                       lru := lru, free := pool.free ++ [prevSlot] }
  | none => some { pool with bySlot := bySlot, byHash := byHash }

def commit (slot : ℕ) (hash : K) (pool : SlotPool K) : Option (Bool × SlotPool K) :=
  if pool.bySlot slot = some hash then do
    let pool ← (pool.unpend slot).touch slot
    return (true,pool)
  else if slot ∉ pool.pending.map Prod.fst then some (false,pool)
  else do
    let pool ← (pool.unpend slot).rebind slot hash
    let lru ← attachTail nilSlot pool.lru slot
    return (true,{ pool with lru := lru })

def lookup (hash : K) (pool : SlotPool K) : Option (Option ℕ × SlotPool K) :=
  match pool.byHash hash with
  | none => some (none,pool)
  | some slot => do
    let pool ← pool.touch slot
    return (some slot,pool)

def release (slot : ℕ) (pool : SlotPool K) : Option (SlotPool K) :=
  match pool.bySlot slot with
  | some hash => do
    let pool ← pool.unbind slot hash
    return { pool with free := pool.free ++ [slot] }
  | none =>
    if slot ∈ pool.pending.map Prod.fst then
      some { pool.unpend slot with free := pool.free ++ [slot] }
    else some pool

def clear (pool : SlotPool K) : SlotPool K :=
  { SlotPool.new pool.lru.prev.length pool.reserveTtl with
    lru := ⟨pool.lru.prev.map (fun _ => nilSlot),pool.lru.next.map (fun _ => nilSlot),nilSlot,nilSlot⟩ }

end SlotPool

end Pool

variable {K : Type}

def SlotPool.reserved (pool : SlotPool K) : List ℕ := pool.pending.map Prod.fst

/-- `bound` are the bound slots, the least recently used first. -/
structure Inv (slotCount : ℕ) (pool : SlotPool K) (bound : List ℕ) : Prop where
  partition : (pool.free ++ pool.reserved ++ bound).Perm (List.range slotCount)
  binding : ∀ s, (pool.bySlot s).isSome ↔ s ∈ bound
  inverse : ∀ s k, pool.bySlot s = some k ↔ pool.byHash k = some s
  links : Spells nilSlot slotCount pool.lru bound

section Facts

variable {slotCount : ℕ} {pool : SlotPool K} {bound : List ℕ} (h : Inv slotCount pool bound)

include h

theorem Inv.nodup : (pool.free ++ pool.reserved ++ bound).Nodup :=
  h.partition.nodup_iff.mpr List.nodup_range

variable {s : ℕ}

theorem Inv.lt_of_mem (hs : s ∈ pool.free ++ pool.reserved ++ bound) : s < slotCount :=
  List.mem_range.mp (h.partition.mem_iff.mp hs)

theorem Inv.free_lt (hs : s ∈ pool.free) : s < slotCount := h.lt_of_mem (by simp [hs])

theorem Inv.reserved_lt (hs : s ∈ pool.reserved) : s < slotCount := h.lt_of_mem (by simp [hs])

theorem Inv.free_not (hs : s ∈ pool.free) : s ∉ pool.reserved ∧ s ∉ bound := by
  have hnodup := h.nodup
  rw [List.append_assoc] at hnodup
  have := List.disjoint_of_nodup_append hnodup hs
  simpa [not_or] using this

theorem Inv.reserved_not (hs : s ∈ pool.reserved) : s ∉ pool.free ∧ s ∉ bound := by
  refine ⟨fun hf => (h.free_not hf).1 hs,?_⟩
  exact List.disjoint_of_nodup_append h.nodup (List.mem_append_right _ hs)

theorem Inv.bound_not (hs : s ∈ bound) : s ∉ pool.free ∧ s ∉ pool.reserved :=
  ⟨fun hf => (h.free_not hf).2 hs,fun hr => (h.reserved_not hr).2 hs⟩

theorem Inv.bySlot_some (hs : s ∈ bound) : ∃ k, pool.bySlot s = some k :=
  Option.isSome_iff_exists.mp ((h.binding s).mpr hs)

theorem Inv.mem_bound {k : K} (hk : pool.byHash k = some s) : s ∈ bound :=
  (h.binding s).mp (by rw [(h.inverse s k).mpr hk]; rfl)

end Facts

theorem filter_ne_of_not_mem (pending : List (ℕ × ℕ)) (s : ℕ) (h : s ∉ pending.map Prod.fst) :
    pending.filter (fun e => e.1 ≠ s) = pending := by
  rw [List.filter_eq_self]
  intro e he
  simp only [ne_eq, decide_not, Bool.not_eq_eq_eq_not, Bool.not_true, decide_eq_false_iff_not]
  rintro rfl
  exact h (List.mem_map_of_mem he)

theorem map_fst_filter_ne (pending : List (ℕ × ℕ)) (s : ℕ) :
    (pending.filter (fun e => e.1 ≠ s)).map Prod.fst =
      (pending.map Prod.fst).filter (fun t => t ≠ s) := by
  rw [List.filter_map]
  rfl

theorem new_inv (slotCount reserveTtl : ℕ) (h : slotCount ≤ nilSlot) :
    Inv slotCount (SlotPool.new slotCount reserveTtl : SlotPool K) [] where
  partition := by simp [SlotPool.new, SlotPool.reserved]
  binding := by simp [SlotPool.new]
  inverse := by simp [SlotPool.new]
  links := empty_spells h

variable {slotCount : ℕ} {pool : SlotPool K} {bound : List ℕ}

theorem clear_inv (h : Inv slotCount pool bound) : Inv slotCount pool.clear [] := by
  have hlen := h.links.lengths
  have hempty : pool.clear.lru = empty nilSlot slotCount := by
    simp [SlotPool.clear, empty, List.map_const', hlen]
  refine ⟨?_,by simp [SlotPool.clear, SlotPool.new],by simp [SlotPool.clear, SlotPool.new],?_⟩
  · simp [SlotPool.clear, SlotPool.new, SlotPool.reserved, hlen]
  · rw [hempty]
    apply empty_spells
    by_contra hlt
    exact h.links.absent nilSlot (by omega) rfl

variable {s : ℕ} {a b : List ℕ}

theorem touch_inv (h : Inv slotCount pool bound) (hb : bound = a ++ s::b) :
    ∃ lru, pool.touch s = some { pool with lru := lru } ∧
      Inv slotCount { pool with lru := lru } (a ++ b ++ [s]) := by
  obtain ⟨l₁,h₁,hs₁⟩ := detach_spells h.links hb
  have hs : s ∈ bound := by simp [hb]
  have hnew : s ∉ a ++ b := by
    obtain ⟨h1,h2⟩ := split_nodup h.links.nodup hb
    simp [h1, h2]
  obtain ⟨l₂,h₂,hs₂⟩ := attachTail_spells hs₁ (h.links.inside s hs) hnew
  have hperm : (a ++ b ++ [s]).Perm bound := by
    rw [hb]
    exact (List.perm_append_singleton s (a ++ b)).trans List.perm_middle.symm
  refine ⟨l₂,by rw [SlotPool.touch, h₁]; simp [h₂],?_,?_,h.inverse,hs₂⟩
  · exact (hperm.append_left _).trans h.partition
  · intro t
    rw [hperm.mem_iff]
    exact h.binding t

theorem touch_last (h : Inv slotCount pool bound) (hs : s ∈ bound) :
    ∃ next kept, pool.touch s = some next ∧ kept.Sublist bound ∧ s ∉ kept ∧
      Inv slotCount next (kept ++ [s]) := by
  obtain ⟨a,b,hb⟩ := List.append_of_mem hs
  obtain ⟨lru,htouch,hinv⟩ := touch_inv h hb
  obtain ⟨ha,hb'⟩ := split_nodup h.links.nodup hb
  refine ⟨_,a ++ b,htouch,?_,by simp [ha, hb'],hinv⟩
  rw [hb]
  exact (List.sublist_cons_self s b).append_left a

theorem lookup_inv (k : K) (h : Inv slotCount pool bound) :
    pool.lookup k = some (none,pool) ∨
      ∃ s next kept, pool.lookup k = some (some s,next) ∧ kept.Sublist bound ∧ s ∉ kept ∧
        Inv slotCount next (kept ++ [s]) := by
  rcases hk : pool.byHash k with _ | s
  · exact .inl (by rw [SlotPool.lookup, hk])
  · obtain ⟨next,kept,htouch,hrest⟩ := touch_last h (h.mem_bound hk)
    exact .inr ⟨s,next,kept,by simp [SlotPool.lookup, hk, htouch],hrest⟩

theorem unpend_eq_self (pool : SlotPool K) (s : ℕ) (hs : s ∉ pool.reserved) : pool.unpend s = pool := by
  rw [SlotPool.unpend, filter_ne_of_not_mem _ _ hs]

theorem Inv.unpend_perm (h : Inv slotCount pool bound) (hs : s ∈ pool.reserved) :
    (s::(pool.unpend s).reserved).Perm pool.reserved := by
  have hnodup : pool.reserved.Nodup := h.nodup.of_append_left.of_append_right
  have herase : (pool.unpend s).reserved = pool.reserved.erase s := by
    rw [hnodup.erase_eq_filter, SlotPool.reserved, SlotPool.unpend, map_fst_filter_ne]
    exact List.filter_congr fun t _ => by by_cases ht : t = s <;> simp [ht]
  rw [herase]
  exact (List.perm_cons_erase hs).symm

theorem reclaimExpired_inv (order : IterOrder (ℕ × ℕ)) (now : ℕ) (h : Inv slotCount pool bound) :
    Inv slotCount (pool.reclaimExpired order now) bound where
  partition := by
    have hsplit : ((order.arrange pool.pending).filter (fun e => ¬now < e.2) ++
        pool.pending.filter (fun e => now < e.2)).Perm pool.pending :=
      (((order.perm _).filter _).append_right _).trans (by
        simpa only [decide_not] using List.perm_append_comm.trans
          (List.filter_append_perm (fun e : ℕ × ℕ => now < e.2) pool.pending))
    have hslots := hsplit.map Prod.fst
    rw [List.map_append] at hslots
    have := (hslots.append_left pool.free).append_right bound
    simp only [← List.append_assoc] at this
    exact this.trans h.partition
  binding := h.binding
  inverse := h.inverse
  links := h.links

variable {free : List ℕ}

theorem pend_partition {s deadline : ℕ}
    (h : (s::(free ++ pool.reserved ++ bound)).Perm (List.range slotCount)) :
    (free ++ (pool.pend s deadline).reserved ++ bound).Perm (List.range slotCount) := by
  have hs : s ∉ pool.reserved := by
    have := h.nodup_iff.mpr List.nodup_range
    simp only [List.nodup_cons, List.mem_append, not_or] at this
    exact this.1.1.2
  simp only [SlotPool.pend, SlotPool.reserved, List.map_cons, filter_ne_of_not_mem _ _ hs]
  refine .trans ?_ h
  simp only [List.append_assoc]
  exact List.perm_middle

variable [DecidableEq K]

theorem takeSlot_free (h : Inv slotCount pool bound)
    (hf : pool.free = s::free) :
    ∃ taken, pool.takeSlot = some (some s,taken) ∧ taken.free = free ∧
      ∀ deadline, Inv slotCount (taken.pend s deadline) bound := by
  refine ⟨{ pool with free := free },by rw [SlotPool.takeSlot, hf],rfl,fun deadline =>
    ⟨?_,h.binding,h.inverse,h.links⟩⟩
  apply pend_partition
  have := h.partition
  rwa [hf] at this

variable {k : K}

theorem unbind_maps (h : Inv slotCount pool bound)
    (hb : bound = a ++ s::b) (hk : pool.bySlot s = some k) :
    (∀ t, (Function.update pool.bySlot s none t).isSome ↔ t ∈ a ++ b) ∧
      ∀ t j, Function.update pool.bySlot s none t = some j ↔
        Function.update pool.byHash k none j = some t := by
  obtain ⟨ha,hb'⟩ := split_nodup h.links.nodup hb
  refine ⟨fun t => ?_,fun t j => ?_⟩
  · by_cases hts : t = s
    · subst hts
      simp [ha, hb']
    · rw [Function.update_of_ne hts, h.binding t, hb]
      simp [hts]
  · have hinv := h.inverse t j
    have hks := (h.inverse s k).mp hk
    by_cases hts : t = s <;> by_cases hjk : j = k
    · simp [hts, hjk]
    · subst hts
      rw [Function.update_self, Function.update_of_ne hjk, ← hinv, hk]
      simp [Ne.symm hjk]
    · subst hjk
      rw [Function.update_of_ne hts, hinv, Function.update_self, hks]
      simp [Ne.symm hts]
    · rw [Function.update_of_ne hts, Function.update_of_ne hjk, hinv]

/-- Taking a slot's binding away leaves the maps inverse and the other bound slots in order. -/
theorem unbind_inv (h : Inv slotCount pool bound)
    (hb : bound = a ++ s::b) (hk : pool.bySlot s = some k) :
    ∃ next, pool.unbind s k = some next ∧ next.free = pool.free ∧ next.pending = pool.pending ∧
      Spells nilSlot slotCount next.lru (a ++ b) ∧
      (∀ t, (next.bySlot t).isSome ↔ t ∈ a ++ b) ∧
      ∀ t j, next.bySlot t = some j ↔ next.byHash j = some t := by
  obtain ⟨lru,hl,hs⟩ := detach_spells h.links hb
  exact ⟨{ pool with bySlot := Function.update pool.bySlot s none,
                     byHash := Function.update pool.byHash k none, lru := lru },
    by simp [SlotPool.unbind, hl],rfl,rfl,hs,unbind_maps h hb hk⟩

theorem takeSlot_bound {b : List ℕ} (h : Inv slotCount pool (s::b)) (hf : pool.free = []) :
    ∃ taken, pool.takeSlot = some (some s,taken) ∧ taken.free = [] ∧
      ∀ deadline, Inv slotCount (taken.pend s deadline) b := by
  have hhead : pool.lru.head = s := h.links.head
  have hne : s ≠ nilSlot := h.links.ne_nil List.mem_cons_self
  obtain ⟨k,hk⟩ := h.bySlot_some List.mem_cons_self
  obtain ⟨taken,hu,hfree,hpend,hs,hbind,hinv⟩ := unbind_inv (a := []) h rfl hk
  refine ⟨taken,by rw [SlotPool.takeSlot, hf, SlotPool.evictOne, hhead]; simp [hne, hk, hu],
    hfree.trans hf,fun deadline => ⟨?_,hbind,hinv,hs⟩⟩
  apply pend_partition
  have hpart := h.partition
  rw [← hfree, SlotPool.reserved, ← hpend] at hpart
  exact List.perm_middle.symm.trans hpart

theorem takeSlot_none (h : Inv slotCount pool []) (hf : pool.free = []) :
    pool.takeSlot = some (none,pool) := by
  have hhead : pool.lru.head = nilSlot := h.links.head
  rw [SlotPool.takeSlot, hf, SlotPool.evictOne, hhead]
  rfl

/-- What is reserved is taken from the free slots first, then from the bound ones in order. -/
theorem reserveSlots_inv (now count : ℕ) (h : Inv slotCount pool bound) :
    ∃ next, SlotPool.reserveSlots now count pool = some ((pool.free ++ bound).take count,next) ∧
      Inv slotCount next (bound.drop (count-pool.free.length)) := by
  induction count generalizing pool bound with
  | zero => exact ⟨pool,by simp [SlotPool.reserveSlots],by simpa using h⟩
  | succ count ih =>
    rcases hf : pool.free with _ | ⟨s,free⟩
    · cases bound with
      | nil => exact ⟨pool,by simp [SlotPool.reserveSlots, takeSlot_none h hf],by simpa using h⟩
      | cons s b =>
        obtain ⟨taken,ht,hfree,hinv⟩ := takeSlot_bound h hf
        obtain ⟨next,hn,hnext⟩ := ih (hinv (now+taken.reserveTtl))
        refine ⟨next,?_,?_⟩
        · simp [SlotPool.reserveSlots, ht, hn, hfree]
        · simpa [hfree] using hnext
    · obtain ⟨taken,ht,hfree,hinv⟩ := takeSlot_free h hf
      obtain ⟨next,hn,hnext⟩ := ih (hinv (now+taken.reserveTtl))
      refine ⟨next,?_,?_⟩
      · simp [SlotPool.reserveSlots, ht, hn, hfree]
      · simpa [hfree] using hnext

def SlotPool.available (order : IterOrder (ℕ × ℕ)) (now count : ℕ) (pool : SlotPool K) : List ℕ :=
  (if pool.free.length < count then pool.reclaimExpired order now else pool).free

theorem reserve_inv (order : IterOrder (ℕ × ℕ)) (now count : ℕ) (h : Inv slotCount pool bound) :
    ∃ next, pool.reserve order now count =
        some ((pool.available order now count ++ bound).take count,next) ∧
      Inv slotCount next (bound.drop (count-(pool.available order now count).length)) := by
  apply reserveSlots_inv
  split_ifs
  · exact reclaimExpired_inv order now h
  · exact h

theorem release_inv (s : ℕ) (h : Inv slotCount pool bound) :
    ∃ next kept, pool.release s = some next ∧ kept.Sublist bound ∧ Inv slotCount next kept := by
  rcases hk : pool.bySlot s with _ | k
  · by_cases hs : s ∈ pool.reserved
    · refine ⟨{ pool.unpend s with free := pool.free ++ [s] },bound,?_,.refl _,?_,h.binding,h.inverse,
        h.links⟩
      · rw [SlotPool.release, hk]
        exact if_pos hs
      · have hsplit := ((h.unpend_perm hs).append_left pool.free).append_right bound
        rw [List.append_cons] at hsplit
        exact hsplit.trans h.partition
    · refine ⟨pool,bound,?_,.refl _,h⟩
      rw [SlotPool.release, hk]
      exact if_neg hs
  · have hs : s ∈ bound := (h.binding s).mp (by rw [hk]; rfl)
    obtain ⟨a,b,hb⟩ := List.append_of_mem hs
    obtain ⟨next,hu,hfree,hpend,hspells,hbind,hinv⟩ := unbind_inv h hb hk
    refine ⟨{ next with free := next.free ++ [s] },a ++ b,by simp [SlotPool.release, hk, hu],?_,?_,
      hbind,hinv,hspells⟩
    · rw [hb]
      exact (List.sublist_cons_self s b).append_left a
    · have hpart := h.partition
      rw [hb, ← hfree, SlotPool.reserved, ← hpend] at hpart
      refine .trans ?_ hpart
      simp only [List.append_assoc, List.singleton_append, SlotPool.reserved]
      apply List.Perm.append_left
      refine .trans ?_ (List.perm_middle.symm.append_left _)
      exact List.perm_middle.symm

theorem bind_inverse {bySlot : ℕ → Option K} {byHash : K → Option ℕ}
    (hinv : ∀ t j, bySlot t = some j ↔ byHash j = some t) (hs : bySlot s = none)
    (hk : byHash k = none) (t : ℕ) (j : K) :
    Function.update bySlot s (some k) t = some j ↔
      Function.update byHash k (some s) j = some t := by
  have hsj := hinv s j
  have htk := hinv t k
  by_cases hts : t = s <;> by_cases hjk : j = k
  · simp [hts, hjk]
  · subst hts
    rw [Function.update_self, Function.update_of_ne hjk, ← hsj, hs]
    simp [Ne.symm hjk]
  · subst hjk
    rw [Function.update_self, Function.update_of_ne hts, htk, hk]
    simp [Ne.symm hts]
  · rw [Function.update_of_ne hts, Function.update_of_ne hjk, hinv]

/-- Binding a reserved slot takes the key's earlier slot out of the list and frees it. -/
theorem rebind_inv (k : K) (h : Inv slotCount pool bound) (hs : s ∈ pool.reserved) :
    ∃ next kept, (pool.unpend s).rebind s k = some next ∧ kept.Sublist bound ∧ s ∉ kept ∧
      Spells nilSlot slotCount next.lru kept ∧ (∀ t, (next.bySlot t).isSome ↔ t ∈ kept ++ [s]) ∧
      (∀ t j, next.bySlot t = some j ↔ next.byHash j = some t) ∧
      (next.free ++ next.reserved ++ (kept ++ [s])).Perm (List.range slotCount) := by
  have hnot := h.reserved_not hs
  have hnone : pool.bySlot s = none := by
    have := (h.binding s).not.mpr hnot.2
    simpa using this
  have hpart : (pool.free ++ (pool.unpend s).reserved ++ (bound ++ [s])).Perm
      (List.range slotCount) := by
    refine .trans ?_ ((((h.unpend_perm hs).append_left pool.free).append_right bound).trans
      h.partition)
    simp only [List.append_assoc, List.cons_append]
    apply List.Perm.append_left
    rw [← List.append_assoc]
    exact List.perm_append_singleton s _
  have hbinding {bySlot : ℕ → Option K} {kept : List ℕ} (hb : ∀ t, (bySlot t).isSome ↔ t ∈ kept)
      (t : ℕ) : (Function.update bySlot s (some k) t).isSome ↔ t ∈ kept ++ [s] := by
    by_cases hts : t = s
    · simp [hts]
    · rw [Function.update_of_ne hts, hb]
      simp [hts]
  rcases hk : pool.byHash k with _ | p
  · refine ⟨{ pool.unpend s with bySlot := Function.update pool.bySlot s (some k),
                                 byHash := Function.update pool.byHash k (some s) },bound,?_,.refl _,
      hnot.2,h.links,hbinding h.binding,bind_inverse h.inverse hnone hk,hpart⟩
    simp only [SlotPool.rebind, SlotPool.unpend, hk]
  · obtain ⟨a,b,hb⟩ := List.append_of_mem (h.mem_bound hk)
    have hps : p ≠ s := fun hps => hnot.2 (hps ▸ h.mem_bound hk)
    have hmaps := unbind_maps h hb ((h.inverse p k).mpr hk)
    obtain ⟨lru,hl,hspells⟩ := detach_spells h.links hb
    refine ⟨{ pool.unpend s with
        bySlot := Function.update (Function.update pool.bySlot s (some k)) p none,
        byHash := Function.update pool.byHash k (some s),
        lru := lru,
        free := pool.free ++ [p] },a ++ b,?_,?_,?_,hspells,?_,?_,?_⟩
    · simp only [SlotPool.rebind, SlotPool.unpend, hk, hl]
      rfl
    · rw [hb]
      exact (List.sublist_cons_self p b).append_left a
    · rw [hb] at hnot
      simp_all
    · rw [Function.update_comm hps.symm]
      exact hbinding hmaps.1
    · have hidem : Function.update (Function.update pool.byHash k none) k (some s) =
          Function.update pool.byHash k (some s) := Function.update_idem _ _ _
      rw [Function.update_comm hps.symm, ← hidem]
      apply bind_inverse hmaps.2
      · rwa [Function.update_of_ne hps.symm]
      · simp
    · refine .trans ?_ hpart
      rw [hb]
      simp only [List.append_assoc, List.singleton_append, SlotPool.reserved]
      apply List.Perm.append_left
      refine .trans ?_ (List.perm_middle.symm.append_left _)
      exact List.perm_middle.symm

theorem commit_inv (s : ℕ) (k : K) (h : Inv slotCount pool bound) :
    pool.commit s k = some (false,pool) ∨
      ∃ next kept, pool.commit s k = some (true,next) ∧ kept.Sublist bound ∧ s ∉ kept ∧
        Inv slotCount next (kept ++ [s]) := by
  by_cases hsame : pool.bySlot s = some k
  · have hs : s ∈ bound := (h.binding s).mp (by rw [hsame]; rfl)
    obtain ⟨next,kept,htouch,hrest⟩ := touch_last h hs
    refine .inr ⟨next,kept,?_,hrest⟩
    rw [SlotPool.commit, if_pos hsame, unpend_eq_self pool s (h.bound_not hs).2, htouch]
    rfl
  by_cases hs : s ∈ pool.reserved
  · obtain ⟨next,kept,hre,hsub,hnew,hspells,hbind,hinv,hpart⟩ := rebind_inv k h hs
    obtain ⟨lru,hl,hspells'⟩ := attachTail_spells hspells (h.reserved_lt hs) hnew
    refine .inr ⟨{ next with lru := lru },kept,?_,hsub,hnew,hpart,hbind,hinv,hspells'⟩
    rw [SlotPool.commit, if_neg hsame, if_neg (by simpa [SlotPool.reserved] using hs), hre]
    simp [hl]
  · left
    rw [SlotPool.commit, if_neg hsame]
    exact if_pos hs

end Openlake.Slots
