import Openlake.Slots

/-!
# What a call takes from others

Seen from a client that holds a reservation, a call on the pool may end some
reservations and bind some slots. `Changes` bounds both, and every call is
described by it; nothing else of the pool matters to the clients.
-/

set_option autoImplicit false

namespace Openlake.Slots
open Lib.Tally

variable {K : Type}

/-- Every reservation but those of `gone` is kept, and only `made` is newly bound. -/
structure Changes (pool next : SlotPool K) (gone : List ℕ) (made : List (ℕ × K)) : Prop where
  reserved : ∀ t ∈ pool.reserved, t ∉ gone → t ∈ next.reserved
  bindings : ∀ t k, next.bySlot t = some k → pool.bySlot t = some k ∨ (t,k) ∈ made

theorem Changes.refl (pool : SlotPool K) : Changes pool pool [] [] :=
  ⟨fun _ ht _ => ht,fun _ _ h => .inl h⟩

theorem Changes.trans {p q r : SlotPool K} {g g' : List ℕ} {m m' : List (ℕ × K)}
    (h : Changes p q g m) (h' : Changes q r g' m') : Changes p r (g ++ g') (m ++ m') where
  reserved t ht hg := by
    rw [List.mem_append, not_or] at hg
    exact h'.reserved t (h.reserved t ht hg.1) hg.2
  bindings t k hk := by
    rw [List.mem_append]
    rcases h'.bindings t k hk with hk | hk
    · rcases h.bindings t k hk with hk | hk
      · exact .inl hk
      · exact .inr (.inl hk)
    · exact .inr (.inr hk)

variable {s : ℕ}

theorem touch_changes {pool next : SlotPool K} (h : pool.touch s = some next) :
    next.pending = pool.pending ∧ next.bySlot = pool.bySlot ∧ next.byHash = pool.byHash := by
  simp only [SlotPool.touch, Option.bind_eq_bind, Option.bind_eq_some_iff, Option.pure_def,
    Option.some.injEq] at h
  obtain ⟨_,_,_,_,rfl⟩ := h
  exact ⟨rfl,rfl,rfl⟩

variable {k : K}

theorem of_update_none {bySlot : ℕ → Option K} {s t : ℕ}
    (h : Function.update bySlot s none t = some k) : bySlot t = some k := by
  by_cases hts : t = s
  · simp [hts] at h
  · rwa [Function.update_of_ne hts] at h

theorem mem_unpend_reserved (pool : SlotPool K) (s t : ℕ) (ht : t ∈ pool.reserved) (hts : t ≠ s) :
    t ∈ (pool.unpend s).reserved := by
  rw [SlotPool.reserved, SlotPool.unpend, map_fst_filter_ne]
  exact List.mem_filter.mpr ⟨ht,by simpa using hts⟩

variable {pool next : SlotPool K} {found : Option ℕ}

theorem lookup_changes (h : pool.lookup k = some (found,next)) :
    Changes pool next [] [] ∧ found = pool.byHash k ∧ next.byHash = pool.byHash := by
  rw [SlotPool.lookup] at h
  rcases hk : pool.byHash k with _ | s
  · rw [hk] at h
    cases h
    exact ⟨.refl _,rfl,rfl⟩
  · rw [hk] at h
    simp only [Option.bind_eq_bind, Option.bind_eq_some_iff, Option.pure_def, Option.some.injEq,
      Prod.mk.injEq] at h
    obtain ⟨_,ht,rfl,rfl⟩ := h
    obtain ⟨hpend,hbind,hhash⟩ := touch_changes ht
    refine ⟨⟨fun t ht _ => ?_,fun t j hj => .inl ?_⟩,rfl,hhash⟩
    · rwa [SlotPool.reserved, hpend]
    · rwa [hbind] at hj

theorem mem_pend_reserved (pool : SlotPool K) (s deadline t : ℕ) :
    t ∈ (pool.pend s deadline).reserved ↔ t = s ∨ t ∈ pool.reserved := by
  simp only [SlotPool.reserved, SlotPool.pend, List.map_cons, map_fst_filter_ne, List.mem_cons,
    List.mem_filter, decide_eq_true_eq]
  by_cases hts : t = s <;> simp [hts]

def SlotPool.expired (now count : ℕ) (pool : SlotPool K) : List ℕ :=
  if pool.free.length < count then (pool.pending.filter (fun e => ¬now < e.2)).map Prod.fst else []

theorem reclaim_changes (order : IterOrder (ℕ × ℕ)) (now count : ℕ) (pool : SlotPool K) :
    Changes pool (if pool.free.length < count then pool.reclaimExpired order now else pool)
      (pool.expired now count) [] := by
  rw [SlotPool.expired]
  split_ifs
  · refine ⟨fun t ht hgone => ?_,fun _ _ hj => .inl hj⟩
    obtain ⟨e,he,rfl⟩ := List.mem_map.mp ht
    apply List.mem_map_of_mem
    refine List.mem_filter.mpr ⟨he,?_⟩
    by_contra hlate
    exact hgone (List.mem_map_of_mem (List.mem_filter.mpr ⟨he,by simpa using hlate⟩))
  · exact .refl _

variable [DecidableEq K]

theorem unbind_changes (h : pool.unbind s k = some next) :
    next.pending = pool.pending ∧ ∀ t j, next.bySlot t = some j → pool.bySlot t = some j := by
  simp only [SlotPool.unbind, Option.bind_eq_bind, Option.bind_eq_some_iff, Option.pure_def,
    Option.some.injEq] at h
  obtain ⟨_,_,rfl⟩ := h
  exact ⟨rfl,fun _ _ hj => of_update_none hj⟩

theorem release_changes (h : pool.release s = some next) : Changes pool next [s] [] := by
  rw [SlotPool.release] at h
  rcases hk : pool.bySlot s with _ | k
  · rw [hk] at h
    by_cases hs : s ∈ pool.pending.map Prod.fst
    · simp only [hs, if_true, Option.some.injEq] at h
      subst h
      exact ⟨fun t ht hts => mem_unpend_reserved pool s t ht (by simpa using hts),fun _ _ hj => .inl hj⟩
    · simp only [hs, if_false, Option.some.injEq] at h
      subst h
      exact ⟨fun t ht _ => ht,fun _ _ hj => .inl hj⟩
  · rw [hk] at h
    simp only [Option.bind_eq_bind, Option.bind_eq_some_iff, Option.pure_def, Option.some.injEq] at h
    obtain ⟨_,hu,rfl⟩ := h
    obtain ⟨hpend,hbind⟩ := unbind_changes hu
    refine ⟨fun t ht _ => ?_,fun t j hj => .inl (hbind t j hj)⟩
    rwa [SlotPool.reserved, hpend]

theorem rebind_changes (h : pool.rebind s k = some next) :
    next.pending = pool.pending ∧
      ∀ t j, next.bySlot t = some j → pool.bySlot t = some j ∨ (t,j) = (s,k) := by
  have hbind (t : ℕ) (j : K) (hj : Function.update pool.bySlot s (some k) t = some j) :
      pool.bySlot t = some j ∨ (t,j) = (s,k) := by
    by_cases hts : t = s
    · subst hts
      simp only [Function.update_self, Option.some.injEq] at hj
      exact .inr (by rw [hj])
    · rw [Function.update_of_ne hts] at hj
      exact .inl hj
  rw [SlotPool.rebind] at h
  rcases hk : pool.byHash k with _ | p
  · simp only [hk, Option.some.injEq] at h
    subst h
    exact ⟨rfl,hbind⟩
  · simp only [hk, Option.bind_eq_bind, Option.bind_eq_some_iff, Option.pure_def,
      Option.some.injEq] at h
    obtain ⟨_,_,rfl⟩ := h
    exact ⟨rfl,fun t j hj => hbind t j (of_update_none hj)⟩

theorem commit_changes {accepted : Bool} (h : pool.commit s k = some (accepted,next)) :
    Changes pool next [s] [(s,k)] := by
  rw [SlotPool.commit] at h
  by_cases hsame : pool.bySlot s = some k
  · rw [if_pos hsame] at h
    simp only [Option.bind_eq_bind, Option.bind_eq_some_iff, Option.pure_def, Option.some.injEq,
      Prod.mk.injEq] at h
    obtain ⟨_,ht,-,rfl⟩ := h
    obtain ⟨hpend,hbind,-⟩ := touch_changes ht
    refine ⟨fun t ht hts => ?_,fun t j hj => .inl ?_⟩
    · rw [SlotPool.reserved, hpend]
      exact mem_unpend_reserved pool s t ht (by simpa using hts)
    · rwa [hbind] at hj
  rw [if_neg hsame] at h
  by_cases hs : s ∈ pool.pending.map Prod.fst
  swap
  · rw [if_pos hs] at h
    cases h
    exact ⟨fun t ht _ => ht,fun _ _ hj => .inl hj⟩
  · rw [if_neg (not_not_intro hs)] at h
    simp only [Option.bind_eq_bind, Option.bind_eq_some_iff, Option.pure_def, Option.some.injEq,
      Prod.mk.injEq] at h
    obtain ⟨_,hr,_,_,-,rfl⟩ := h
    obtain ⟨hpend,hbind⟩ := rebind_changes hr
    refine ⟨fun t ht hts => ?_,fun t j hj => ?_⟩
    · rw [SlotPool.reserved, hpend]
      exact mem_unpend_reserved pool s t ht (by simpa using hts)
    · rcases hbind t j hj with hj | hj
      · exact .inl hj
      · exact .inr (by simp [hj])

theorem takeSlot_changes (h : pool.takeSlot = some (found,next)) :
    next.pending = pool.pending ∧ ∀ t j, next.bySlot t = some j → pool.bySlot t = some j := by
  rw [SlotPool.takeSlot] at h
  rcases hf : pool.free with _ | ⟨s,free⟩
  · rw [hf, SlotPool.evictOne] at h
    simp only [Option.bind_eq_bind, Option.pure_def] at h
    split_ifs at h
    · cases h
      exact ⟨rfl,fun _ _ hj => hj⟩
    · simp only [Option.bind_eq_some_iff, Option.some.injEq, Prod.mk.injEq] at h
      obtain ⟨_,_,_,hu,-,rfl⟩ := h
      exact unbind_changes hu
  · rw [hf] at h
    cases h
    exact ⟨rfl,fun _ _ hj => hj⟩

variable {now count : ℕ} {out : List ℕ}

theorem reserveSlots_changes
    (h : SlotPool.reserveSlots now count pool = some (out,next)) :
    Changes pool next [] [] ∧ ∀ s ∈ out, s ∈ next.reserved := by
  induction count generalizing pool out with
  | zero =>
    cases h
    exact ⟨.refl _,by simp⟩
  | succ count ih =>
    simp only [SlotPool.reserveSlots, Option.bind_eq_bind, Option.bind_eq_some_iff] at h
    obtain ⟨⟨found,taken⟩,ht,h⟩ := h
    obtain ⟨hpend,hbind⟩ := takeSlot_changes ht
    cases found with
    | none =>
      cases h
      refine ⟨⟨fun t ht _ => ?_,fun t j hj => .inl (hbind t j hj)⟩,by simp⟩
      rwa [SlotPool.reserved, hpend]
    | some s =>
      simp only [Option.bind_eq_some_iff, Option.pure_def, Option.some.injEq, Prod.mk.injEq] at h
      obtain ⟨⟨rest,last⟩,hr,rfl,rfl⟩ := h
      obtain ⟨hchanges,hout⟩ := ih hr
      have hkept (t : ℕ) (ht : t = s ∨ t ∈ taken.reserved) : t ∈ last.reserved :=
        hchanges.reserved t ((mem_pend_reserved taken s _ t).mpr ht) (by simp)
      refine ⟨⟨fun t ht _ => hkept t (.inr ?_),fun t j hj => .inl ?_⟩,fun t ht => ?_⟩
      · rwa [SlotPool.reserved, hpend]
      · rcases hchanges.bindings t j hj with hj | hj
        · exact hbind t j hj
        · simp at hj
      · rcases List.mem_cons.mp ht with rfl | ht
        · exact hkept t (.inl rfl)
        · exact hout t ht

/-- What is handed out is reserved, each slot once, and was not reserved before unless that
reservation had expired. -/
theorem reserve_changes {slotCount : ℕ} {bound : List ℕ} {order : IterOrder (ℕ × ℕ)}
    (hinv : Inv slotCount pool bound)
    (h : pool.reserve order now count = some (out,next)) :
    Changes pool next (pool.expired now count) [] ∧ (∀ s ∈ out, s ∈ next.reserved) ∧ out.Nodup ∧
      ∀ s ∈ pool.reserved, s ∉ pool.expired now count → s ∉ out := by
  obtain ⟨hchanges,hout⟩ := reserveSlots_changes h
  have hreclaim := reclaim_changes order now count pool
  have htrans := hreclaim.trans hchanges
  rw [List.append_nil, List.append_nil] at htrans
  refine ⟨htrans,hout,?_⟩
  have hinv' : Inv slotCount
      (if pool.free.length < count then pool.reclaimExpired order now else pool) bound := by
    split_ifs
    · exact reclaimExpired_inv order now hinv
    · exact hinv
  obtain ⟨_,hr,-⟩ := reserveSlots_inv now count hinv'
  rw [SlotPool.reserve, hr, Option.some.injEq, Prod.mk.injEq] at h
  obtain ⟨rfl,-⟩ := h
  have hnodup := hinv'.nodup
  refine ⟨(List.take_sublist _ _).nodup (hnodup.sublist ?_),fun s hs hlive hmem => ?_⟩
  · exact (List.sublist_append_left _ _).append_right _
  · have hnot := hinv'.reserved_not (hreclaim.reserved s hs hlive)
    have := List.mem_of_mem_take hmem
    simp [hnot] at this

open Lib.LinkedList

variable {K : Type}

inductive PoolCall (K : Type) where
  | reserve (order : IterOrder (ℕ × ℕ)) (count : ℕ)
  | commit (slot : ℕ) (hash : K)
  | lookup (hash : K)
  | release (slot : ℕ)
  | clear
  | advance (elapsed : ℕ)

structure PoolRun (K : Type) where
  pool : SlotPool K
  now : ℕ
  uses : List ℕ

section Steps

variable [DecidableEq K]

def PoolRun.step (r : PoolRun K) : PoolCall K → Option (PoolRun K)
  | .reserve order count => do
    let (_,pool) ← r.pool.reserve order r.now count
    return { r with pool := pool }
  | .commit slot hash => do
    let (accepted,pool) ← r.pool.commit slot hash
    return { r with pool := pool, uses := if accepted then r.uses ++ [slot] else r.uses }
  | .lookup hash => do
    let (found,pool) ← r.pool.lookup hash
    return { r with pool := pool, uses := r.uses ++ found.toList }
  | .release slot => do
    let pool ← r.pool.release slot
    return { r with pool := pool }
  | .clear => some { r with pool := r.pool.clear }
  | .advance elapsed => some { r with now := r.now+elapsed }

def PoolRun.run (r : PoolRun K) (calls : List (PoolCall K)) : Option (PoolRun K) :=
  calls.foldlM PoolRun.step r

end Steps

def SlotPool.visited (slotCount : ℕ) (pool : SlotPool K) : List ℕ :=
  walk nilSlot pool.lru slotCount pool.lru.head

/-- Without all but the last use of each slot, a further use puts its slot at the end. -/
theorem dedup_concat (uses : List ℕ) (s : ℕ) :
    (uses ++ [s]).dedup = uses.dedup.filter (fun t => t ≠ s) ++ [s] := by
  induction uses with
  | nil => simp
  | cons t uses ih =>
    rw [List.cons_append]
    by_cases hmem : t ∈ uses
    · rw [List.dedup_cons_of_mem (by simp [hmem]), List.dedup_cons_of_mem hmem, ih]
    · by_cases hts : t = s
      · subst hts
        rw [List.dedup_cons_of_mem (by simp), List.dedup_cons_of_notMem hmem, ih]
        simp
      · rw [List.dedup_cons_of_notMem (by simp [hmem, hts]), List.dedup_cons_of_notMem hmem, ih]
        simp [hts]

theorem sublist_dedup_concat {kept bound uses : List ℕ} {s : ℕ} (hb : bound.Sublist uses.dedup)
    (hk : kept.Sublist bound) (hs : s ∉ kept) : (kept ++ [s]).Sublist (uses ++ [s]).dedup := by
  rw [dedup_concat]
  apply List.Sublist.append_right
  have hself : kept.filter (fun t => t ≠ s) = kept := by
    rw [List.filter_eq_self]
    intro t ht
    simpa using fun hts : t = s => hs (hts ▸ ht)
  rw [← hself]
  exact (hk.trans hb).filter _

structure Tracked (slotCount : ℕ) (r : PoolRun K) (bound : List ℕ) : Prop where
  inv : Inv slotCount r.pool bound
  recency : bound.Sublist r.uses.dedup

variable [DecidableEq K] {slotCount : ℕ} {r : PoolRun K} {bound : List ℕ}

theorem step_tracked (call : PoolCall K) (h : Tracked slotCount r bound) :
    ∃ next bound', r.step call = some next ∧ Tracked slotCount next bound' := by
  cases call with
  | reserve order count =>
    obtain ⟨next,hn,hinv⟩ := reserve_inv order r.now count h.inv
    exact ⟨{ r with pool := next },_,by simp [PoolRun.step, hn],hinv,
      (List.drop_sublist _ _).trans h.recency⟩
  | commit slot hash =>
    rcases commit_inv slot hash h.inv with hn | ⟨next,kept,hn,hsub,hnew,hinv⟩
    · exact ⟨r,_,by simp [PoolRun.step, hn],h.inv,h.recency⟩
    · exact ⟨{ r with pool := next, uses := r.uses ++ [slot] },_,by simp [PoolRun.step, hn],hinv,
        sublist_dedup_concat h.recency hsub hnew⟩
  | lookup hash =>
    rcases lookup_inv hash h.inv with hn | ⟨s,next,kept,hn,hsub,hnew,hinv⟩
    · exact ⟨r,_,by simp [PoolRun.step, hn],h.inv,h.recency⟩
    · exact ⟨{ r with pool := next, uses := r.uses ++ [s] },_,by simp [PoolRun.step, hn],hinv,
        sublist_dedup_concat h.recency hsub hnew⟩
  | release slot =>
    obtain ⟨next,kept,hn,hsub,hinv⟩ := release_inv slot h.inv
    exact ⟨{ r with pool := next },_,by simp [PoolRun.step, hn],hinv,hsub.trans h.recency⟩
  | clear => exact ⟨_,_,rfl,clear_inv h.inv,List.nil_sublist _⟩
  | advance elapsed => exact ⟨_,_,rfl,h.inv,h.recency⟩

theorem run_tracked (calls : List (PoolCall K)) (h : Tracked slotCount r bound) :
    ∃ final bound', r.run calls = some final ∧ Tracked slotCount final bound' := by
  induction calls generalizing r bound with
  | nil => exact ⟨r,bound,rfl,h⟩
  | cons call calls ih =>
    obtain ⟨next,_,hstep,hnext⟩ := step_tracked call h
    obtain ⟨final,bound',hrun,hfinal⟩ := ih hnext
    refine ⟨final,bound',?_,hfinal⟩
    rw [PoolRun.run, List.foldlM_cons, hstep]
    exact hrun

/-- No sequence of calls panics; after it the slots are shared out without overlap, the maps are
inverse, the list visits the bound slots in the order of their last uses, and a reservation takes
the free slots before the least recently used ones. -/
theorem pool_calls_sound (slotCount reserveTtl start : ℕ) (h : slotCount < nilSlot)
    (calls : List (PoolCall K)) :
    ∃ r, PoolRun.run ⟨SlotPool.new slotCount reserveTtl,start,[]⟩ calls = some r ∧
      (r.pool.free ++ r.pool.reserved ++ r.pool.visited slotCount).Perm (List.range slotCount) ∧
      (∀ s, (r.pool.bySlot s).isSome ↔ s ∈ r.pool.visited slotCount) ∧
      (∀ s k, r.pool.bySlot s = some k ↔ r.pool.byHash k = some s) ∧
      (r.pool.visited slotCount).Sublist r.uses.dedup ∧
      (∀ i ∈ r.pool.visited slotCount, ∀ j ∈ r.pool.visited slotCount,
        (r.pool.lru.next[i]? = some j ↔ r.pool.lru.prev[j]? = some i)) ∧
      ∀ order count, ∃ next, r.pool.reserve order r.now count =
        some ((r.pool.available order r.now count ++ r.pool.visited slotCount).take count,next) := by
  obtain ⟨r,bound,hrun,hr⟩ := run_tracked calls
    (r := ⟨SlotPool.new slotCount reserveTtl,start,[]⟩) ⟨new_inv slotCount reserveTtl h.le,by simp⟩
  have hvisited : r.pool.visited slotCount = bound := hr.inv.links.walk_eq
  rw [← hvisited] at hr
  refine ⟨r,hrun,hr.inv.partition,hr.inv.binding,hr.inv.inverse,hr.recency,fun i hi j hj =>
    hr.inv.links.next_iff_prev i j hi hj,fun order count => ?_⟩
  obtain ⟨next,hn,-⟩ := reserve_inv order r.now count hr.inv
  exact ⟨next,hn⟩

def sampleCalls : List (PoolCall ℕ) :=
  [.reserve (.insertion _) 2,.commit 0 7,.commit 1 8,.lookup 7]

theorem sampleCalls_sound : 2 < nilSlot ∧
    ∃ r, PoolRun.run ⟨SlotPool.new 2 60,0,[]⟩ sampleCalls = some r ∧
      (r.pool.visited 2).Sublist r.uses.dedup := by
  obtain ⟨r,hrun,-,-,-,huses,-⟩ := pool_calls_sound 2 60 0 (by decide) sampleCalls
  exact ⟨by decide,r,hrun,huses⟩

end Openlake.Slots
