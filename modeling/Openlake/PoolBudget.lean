import Openlake.Lib.PartialRuns
import Openlake.PoolInvariant

/-!
# The budget of the pool

Callers acquire buffers of the pool and release them as they got them. A new
buffer is charged to the budget when it fits beside the buffers in use, and the
buffers in the free queues are not counted then.

A release moves a tracked buffer to a free queue, and adds to what the pool holds
when the buffer was not tracked. The pool stays within its limit exactly if every
buffer that is charged or queued anew has room beside the free queues too.
-/

set_option autoImplicit false

namespace Openlake.Alloc

inductive PoolCall where
  | acquire (capacity : UInt64)
  | release (k : ℕ)
  deriving DecidableEq

section Calls

variable (build : Build) (w : World)

def World.acquire (capacity : ℕ) : Option World := do
  let (buffer,wasPoolAllocated,pool) ← acquireBuffer build w.held w.pool capacity
  return ⟨pool,w.live ++ [⟨capacity,⟨wasPoolAllocated,buffer.capacity,buffer⟩⟩]⟩

def World.release (k : ℕ) : Option World := do
  let h ← w.live[k]?
  return ⟨releaseBuffer w.pool h.buf.inner h.buf.originalCapacity h.buf.fromPool,
    w.live.eraseIdx k⟩

def World.call : PoolCall → Option World
  | .acquire capacity => w.acquire build capacity.toNat
  | .release k => w.release k

end Calls

def runCalls (build : Build) (w : World) (calls : List PoolCall) : Option World :=
  Lib.PartialRuns.run (World.call build) w calls

def trackedBytes (w : World) : ℕ := liveBytes (w.live.filter fun h => h.buf.fromPool)

/-- The tracked buffers in use and the buffers in the free queues. -/
def pooledBytes (w : World) : ℕ := trackedBytes w+queuedBytes w.pool

/-- A new buffer that is charged to the budget, and an untracked buffer that is queued, have
room beside all the pool holds. -/
def HasRoom (build : Build) (w : World) : PoolCall → Prop
  | .acquire capacity => ∀ i, bestFit capacity.toNat = some i → w.pool.buckets i = [] →
      ∀ n, build.usize (trackedBytes w+bucketSize i) = some n → n ≤ w.pool.memoryLimit →
        pooledBytes w+bucketSize i ≤ w.pool.memoryLimit
  | .release k => ∀ h, w.live[k]? = some h → h.buf.fromPool = false →
      ∀ i, bestFit h.buf.inner.capacity = some i →
        (w.pool.buckets i).length < w.pool.bucketCapacity →
          pooledBytes w+h.buf.inner.capacity ≤ w.pool.memoryLimit

def InUse (i : Bucket) (h : Held) : Prop :=
  h.buf.fromPool = true ∧ h.buf.inner.capacity = bucketSize i

instance (i : Bucket) : DecidablePred (InUse i) := fun _ => inferInstanceAs (Decidable (_ ∧ _))

/-- Every buffer of a class has its size, and the counters count the tracked ones. -/
structure Classed (w : World) : Prop where
  isEnabled : w.pool.isEnabled = true
  limit : w.pool.memoryLimit < 2^64
  queued : ∀ i, ∀ b ∈ w.pool.buckets i, b.capacity = bucketSize i
  original : ∀ h ∈ w.live, h.buf.originalCapacity = h.buf.inner.capacity
  sized : ∀ h ∈ w.live, ∀ i, bestFit h.buf.inner.capacity = some i →
    h.buf.inner.capacity = bucketSize i
  tracked : ∀ h ∈ w.live, h.buf.fromPool = true → ∃ i, h.buf.inner.capacity = bucketSize i
  counted : ∀ i, w.pool.inUse i = w.live.countP (InUse i)
  room : w.held ≤ 2^64

theorem bucketSize_inj {i j : Bucket} (h : bucketSize i = bucketSize j) : i = j := by
  have hfit := bestFit_bucketSize i
  rw [h, bestFit_bucketSize] at hfit
  exact (Option.some.inj hfit).symm

theorem alignment_le_bucketSize (i : Bucket) : alignment ≤ bucketSize i := by
  revert i
  decide +kernel

theorem tracked_sum (live : List Held)
    (h : ∀ x ∈ live, x.buf.fromPool = true → ∃ i, x.buf.inner.capacity = bucketSize i) :
    liveBytes (live.filter fun h => h.buf.fromPool) =
      ∑ i, live.countP (InUse i)*bucketSize i := by
  induction live with
  | nil => simp [liveBytes, bytes]
  | cons x live ih =>
    have hrest := ih fun y hy => h y (List.mem_cons_of_mem _ hy)
    simp only [List.countP_cons, Nat.add_mul, Finset.sum_add_distrib]
    by_cases hx : x.buf.fromPool = true
    · obtain ⟨i,hi⟩ := h x List.mem_cons_self hx
      have hone : ∑ j, (if decide (InUse j x) = true then 1 else 0)*bucketSize j =
          bucketSize i := by
        rw [Finset.sum_eq_single i]
        · rw [if_pos (decide_eq_true ⟨hx,hi⟩), Nat.one_mul]
        · intro j _ hj
          rw [if_neg, Nat.zero_mul]
          simp only [decide_eq_true_eq]
          exact fun hin => hj (bucketSize_inj (hin.2.symm.trans hi))
        · exact fun hnot => absurd (Finset.mem_univ i) hnot
      rw [List.filter_cons_of_pos (p := fun h : Held => h.buf.fromPool) hx, liveBytes_cons, hrest, hone,
        hi, Nat.add_comm]
    · have hzero : ∑ j, (if decide (InUse j x) = true then 1 else 0)*bucketSize j = 0 :=
        Finset.sum_eq_zero fun j _ => by simp [InUse, hx]
      rw [List.filter_cons_of_neg (p := fun h : Held => h.buf.fromPool) hx, hrest, hzero, Nat.add_zero]

theorem liveBytes_filter_le (live : List Held) (p : Held → Bool) :
    liveBytes (live.filter p) ≤ liveBytes live := by
  rw [liveBytes, liveBytes, bytes, bytes]
  exact ((List.filter_sublist.map _).map _).sum_le_sum (by simp)

theorem foldlM_usize (build : Build) (f : Bucket → ℕ) (l : List Bucket) (acc : ℕ)
    (h : acc+(l.map f).sum < 2^64) :
    l.foldlM (fun sum i => do build.usize (sum + (← build.usize (f i)))) acc =
      some (acc+(l.map f).sum) := by
  induction l generalizing acc with
  | nil => simp
  | cons i l ih =>
    rw [List.map_cons, List.sum_cons] at h ⊢
    have hone : build.usize (f i) = some (f i) := if_pos (by omega)
    have hstep : (do build.usize (acc + (← build.usize (f i)))) = some (acc+f i) := by
      rw [hone]
      exact if_pos (by omega)
    rw [List.foldlM_cons, hstep, ← Nat.add_assoc]
    exact ih _ (by omega)

section Inv

variable {w : World}

theorem Classed.trackedBytes_eq (hw : Classed w) :
    trackedBytes w = ∑ i, w.pool.inUse i*bucketSize i := by
  rw [trackedBytes, tracked_sum _ hw.tracked]
  exact Finset.sum_congr rfl fun i _ => by rw [hw.counted]

theorem Classed.poolCurrentSize_eq (hw : Classed w) (h : trackedBytes w < 2^64) (build : Build) :
    poolCurrentSize build w.pool = some (trackedBytes w) := by
  have hsum : trackedBytes w =
      ((List.finRange numBuckets).map fun i => w.pool.inUse i*bucketSize i).sum := by
    rw [hw.trackedBytes_eq, Fin.sum_univ_def]
  rw [poolCurrentSize, foldlM_usize build (fun i => w.pool.inUse i*bucketSize i), Nat.zero_add,
    hsum]
  rwa [Nat.zero_add, ← hsum]

theorem Classed.trackedBytes_le (hw : Classed w) : trackedBytes w ≤ 2^64 :=
  calc
    trackedBytes w ≤ liveBytes w.live := liveBytes_filter_le _ _
    _ ≤ w.held := Nat.le_add_left _ _
    _ ≤ 2^64 := hw.room

theorem Classed.count_lt (hw : Classed w) (i : Bucket) : w.pool.inUse i+1 < 2^64 := by
  have hone : w.pool.inUse i*bucketSize i ≤ trackedBytes w := by
    rw [hw.trackedBytes_eq]
    exact Finset.single_le_sum (f := fun j => w.pool.inUse j*bucketSize j)
      (fun _ _ => Nat.zero_le _) (Finset.mem_univ i)
  have hpage := Nat.mul_le_mul_left (w.pool.inUse i) (alignment_le_bucketSize i)
  have hle := hw.trackedBytes_le
  rw [alignment] at hpage
  omega

end Inv

theorem bucketSize_lt_of_bestFit_none {capacity : ℕ} (h : bestFit capacity = none) (i : Bucket) :
    bucketSize i < capacity := by
  have hlen : (bucketSizes.takeWhile (fun y => y < capacity)).length = bucketSizes.length := by
    refine le_antisymm (List.takeWhile_sublist _).length_le ?_
    by_contra hlt
    simp only [bestFit, binarySearch] at h
    split at h
    all_goals
      rename_i hsearch
      split_ifs at hsearch
      cases hsearch
      split_ifs at h with hindex
      exact hlt (not_lt.mp hindex)
  have hall := List.takeWhile_eq_self_iff.mp
    ((List.takeWhile_sublist fun y => decide (y < capacity)).eq_of_length hlen)
  exact of_decide_eq_true (hall _ (List.get_mem bucketSizes i))

theorem external_sized {build : Build} {capacity n : ℕ} (hlt : capacity < 2^64)
    (hfit : bestFit capacity = none) (h : alignedCapacity build capacity = some n) {i : Bucket}
    (hi : bestFit n = some i) : n = bucketSize i := by
  obtain ⟨m,hm,rfl⟩ := Option.map_eq_some_iff.mp h
  have hbig := bucketSize_lt_of_bestFit_none hfit i
  have hle := bestFit_le hi
  have hsmall : m = 0 := by
    have halign : capacity%alignment < alignment := Nat.mod_lt _ (by decide)
    rw [nextMultipleOf] at hm
    split_ifs at hm with hmod
    · have := Option.some.inj hm
      omega
    cases build with
    | checked =>
      rw [Build.usize] at hm
      split_ifs at hm
      have := Option.some.inj hm
      omega
    | release =>
      rw [Build.usize] at hm
      split_ifs at hm with hword
      · have := Option.some.inj hm
        omega
      · have hwrap := Option.some.inj hm
        rw [alignment] at halign hword hwrap
        omega
  subst hsmall
  have hpage : bestFit (max 0 alignment) = some ⟨0,by decide⟩ := bestFit_bucketSize ⟨0,by decide⟩
  rw [hpage] at hi
  cases hi
  rfl

section Inv

variable {w : World}

theorem Classed.acquired (hw : Classed w) {pool : MemoryPool} {h : Held}
    (hon : pool.isEnabled = w.pool.isEnabled) (hlimit : pool.memoryLimit = w.pool.memoryLimit)
    (hqueued : ∀ i, ∀ b ∈ pool.buckets i, b.capacity = bucketSize i)
    (horiginal : h.buf.originalCapacity = h.buf.inner.capacity)
    (hsized : ∀ i, bestFit h.buf.inner.capacity = some i → h.buf.inner.capacity = bucketSize i)
    (htracked : h.buf.fromPool = true → ∃ i, h.buf.inner.capacity = bucketSize i)
    (hcounted : ∀ i, pool.inUse i = w.pool.inUse i+if InUse i h then 1 else 0)
    (hroom : World.held ⟨pool,w.live ++ [h]⟩ ≤ 2^64) : Classed ⟨pool,w.live ++ [h]⟩ := by
  have hlive : ∀ P : Held → Prop, (∀ x ∈ w.live, P x) → P h → ∀ x ∈ w.live ++ [h], P x := by
    intro P hall hlast x hx
    rcases List.mem_append.mp hx with hx | hx
    · exact hall x hx
    · rw [List.mem_singleton.mp hx]
      exact hlast
  refine ⟨hon.trans hw.isEnabled,hlimit ▸ hw.limit,hqueued,?_,?_,?_,?_,hroom⟩
  · exact hlive _ hw.original horiginal
  · exact hlive _ hw.sized hsized
  · exact hlive _ hw.tracked htracked
  · intro i
    rw [hcounted, hw.counted, List.countP_append, List.countP_singleton]
    simp

theorem trackedBytes_append (pool : MemoryPool) (live : List Held) (h : Held) :
    trackedBytes ⟨pool,live ++ [h]⟩ = liveBytes (live.filter fun h => h.buf.fromPool)+
      if h.buf.fromPool then h.buf.inner.capacity else 0 := by
  rw [trackedBytes, List.filter_append, liveBytes, List.map_append, bytes_append]
  congr 1
  by_cases hh : h.buf.fromPool = true
  · simp [hh, bytes]
  · simp [hh, bytes]

section

variable (hw : Classed w) {pool : MemoryPool} {h : Held}

include hw

theorem inUse_counted {i : Bucket}
    (hfrom : h.buf.fromPool = true) (hsize : h.buf.inner.capacity = bucketSize i)
    (hinUse : pool.inUse = Function.update w.pool.inUse i (fetchAdd (w.pool.inUse i)))
    (j : Bucket) : pool.inUse j = w.pool.inUse j+if InUse j h then 1 else 0 := by
  rw [hinUse]
  by_cases hj : j = i
  · subst hj
    rw [Function.update_self, fetchAdd_eq (hw.count_lt j), if_pos ⟨hfrom,hsize⟩]
  · rw [Function.update_of_ne hj, if_neg, Nat.add_zero]
    exact fun hin => hj (bucketSize_inj (hin.2.symm.trans hsize))

theorem Classed.fresh (hon : pool.isEnabled = w.pool.isEnabled)
    (hlimit : pool.memoryLimit = w.pool.memoryLimit)
    (hbuckets : pool.buckets = w.pool.buckets)
    (horiginal : h.buf.originalCapacity = h.buf.inner.capacity)
    (hsized : ∀ i, bestFit h.buf.inner.capacity = some i → h.buf.inner.capacity = bucketSize i)
    (htracked : h.buf.fromPool = true → ∃ i, h.buf.inner.capacity = bucketSize i)
    (hcounted : ∀ i, pool.inUse i = w.pool.inUse i+if InUse i h then 1 else 0)
    (hroom : w.held+h.buf.inner.capacity ≤ 2^64) :
    Classed ⟨pool,w.live ++ [h]⟩ ∧ pooledBytes ⟨pool,w.live ++ [h]⟩ =
      pooledBytes w+if h.buf.fromPool then h.buf.inner.capacity else 0 := by
  have hsame : queuedBytes pool = queuedBytes w.pool := by
    rw [queuedBytes, hbuckets, queuedBytes]
  constructor
  · refine hw.acquired hon hlimit (hbuckets ▸ hw.queued) horiginal hsized htracked hcounted ?_
    rw [held_append, hsame, ← Nat.add_assoc]
    exact hroom
  · rw [pooledBytes, trackedBytes_append, hsame, pooledBytes, trackedBytes]
    omega

theorem Classed.reused {i : Bucket}
    {rest : List AlignedBuffer} (hon : pool.isEnabled = w.pool.isEnabled)
    (hlimit : pool.memoryLimit = w.pool.memoryLimit)
    (hqueue : w.pool.buckets i = h.buf.inner::rest)
    (hbuckets : pool.buckets = Function.update w.pool.buckets i rest)
    (hinUse : pool.inUse = Function.update w.pool.inUse i (fetchAdd (w.pool.inUse i)))
    (hfrom : h.buf.fromPool = true) (horiginal : h.buf.originalCapacity = h.buf.inner.capacity) :
    Classed ⟨pool,w.live ++ [h]⟩ ∧ pooledBytes ⟨pool,w.live ++ [h]⟩ = pooledBytes w := by
  have hsize : h.buf.inner.capacity = bucketSize i :=
    hw.queued i _ (hqueue ▸ List.mem_cons_self)
  have hchange := @queuedBytes_change w.pool pool i fun j hj => by
    rw [hbuckets, Function.update_of_ne hj]
  rw [hqueue, hbuckets, Function.update_self, bytes_cons] at hchange
  have hroom := hw.room
  rw [World.held] at hroom
  constructor
  · refine hw.acquired hon hlimit ?_ horiginal (fun j hj => ?_) (fun _ => ⟨i,hsize⟩)
      (inUse_counted hw hfrom hsize hinUse) ?_
    · intro j b hb
      rw [hbuckets] at hb
      by_cases hj : j = i
      · subst hj
        rw [Function.update_self] at hb
        exact hw.queued j b (hqueue ▸ List.mem_cons_of_mem _ hb)
      · rw [Function.update_of_ne hj] at hb
        exact hw.queued j b hb
    · rw [hsize, bestFit_bucketSize] at hj
      cases hj
      exact hsize
    · rw [held_append]
      omega
  · rw [pooledBytes, trackedBytes_append, if_pos hfrom, pooledBytes, trackedBytes]
    dsimp only
    omega

end

theorem Classed.acquire (hw : Classed w) {build : Build} {capacity : ℕ} {w' : World}
    (hlt : capacity < 2^64) (h : w.acquire build capacity = some w') :
    Classed w' ∧ w'.pool.memoryLimit = w.pool.memoryLimit ∧
      ((pooledBytes w' = pooledBytes w ∧ ∀ i, bestFit capacity = some i →
          w.pool.buckets i = [] → ∃ current n, poolCurrentSize build w.pool = some current ∧
            build.usize (current+bucketSize i) = some n ∧ w.pool.memoryLimit < n) ∨
        ∃ i current n, bestFit capacity = some i ∧ w.pool.buckets i = [] ∧
          poolCurrentSize build w.pool = some current ∧
          build.usize (current+bucketSize i) = some n ∧ n ≤ w.pool.memoryLimit ∧
          pooledBytes w' = pooledBytes w+bucketSize i) := by
  obtain ⟨⟨buf,tracked,pool⟩,hacquire,hret⟩ := Option.bind_eq_some_iff.mp h
  cases hret
  obtain ⟨hcases,hon,hlimit⟩ := acquireBuffer_acquired hw.isEnabled hacquire
  have hclass : ∀ {i : Bucket}, buf.capacity = bucketSize i → ∀ j, bestFit buf.capacity = some j →
      buf.capacity = bucketSize j := by
    intro i hi j hj
    rw [hi, bestFit_bucketSize] at hj
    cases hj
    exact hi
  cases hcases with
  | external hfit hbuf hbuckets hinUse =>
    obtain ⟨n,hn,hroom⟩ := Option.bind_eq_some_iff.mp hbuf
    obtain ⟨rfl,hle⟩ := withRoom_eq_some hroom
    have hsized : ∀ i, bestFit buf.capacity = some i → buf.capacity = bucketSize i :=
      fun i hi => external_sized hlt hfit hn hi
    obtain ⟨hnext,hbytes⟩ := hw.fresh (h := ⟨capacity,⟨false,buf.capacity,buf⟩⟩) hon hlimit hbuckets
      rfl hsized (by simp) (fun i => by simp [hinUse, InUse]) hle
    refine ⟨hnext,hlimit,.inl ⟨by simpa using hbytes,fun i hi => ?_⟩⟩
    rw [hfit] at hi
    cases hi
  | popped i b rest hfit hqueue hbuf hbuckets hinUse =>
    have hsize := hw.queued i b (hqueue ▸ List.mem_cons_self)
    obtain ⟨rfl,-⟩ := hbuf.resolve_right fun hsmall => by
      have := bestFit_le hfit
      omega
    obtain ⟨hnext,hbytes⟩ := hw.reused (h := ⟨capacity,⟨true,buf.capacity,buf⟩⟩) hon hlimit hqueue
      hbuckets hinUse rfl rfl
    refine ⟨hnext,hlimit,.inl ⟨hbytes,fun j hj hempty => ?_⟩⟩
    rw [hfit] at hj
    cases hj
    rw [hqueue] at hempty
    cases hempty
  | refused i current n hfit hqueue hcurrent hn hover hbuf hbuckets hinUse =>
    obtain ⟨hcap,hroom⟩ := allocate_bucket hbuf
    obtain ⟨hnext,hbytes⟩ := hw.fresh (h := ⟨capacity,⟨false,buf.capacity,buf⟩⟩) hon hlimit hbuckets
      rfl (hclass hcap) (by simp) (fun i => by simp [hinUse, InUse]) hroom
    refine ⟨hnext,hlimit,.inl ⟨by simpa using hbytes,fun j hj _ => ?_⟩⟩
    rw [hfit] at hj
    cases hj
    exact ⟨current,n,hcurrent,hn,hover⟩
  | charged i current n hfit hqueue hcurrent hn hle hbuf hbuckets hinUse =>
    obtain ⟨hcap,hroom⟩ := allocate_bucket hbuf
    obtain ⟨hnext,hbytes⟩ := hw.fresh (h := ⟨capacity,⟨true,buf.capacity,buf⟩⟩) hon hlimit hbuckets
      rfl (hclass hcap) (fun _ => ⟨i,hcap⟩) (inUse_counted hw rfl hcap hinUse) hroom
    exact ⟨hnext,hlimit,.inr ⟨i,current,n,hfit,hqueue,hcurrent,hn,hle,hbytes.trans (by simp [hcap])⟩⟩

end Inv

open Lib.PartialRuns

/-- The buffer joins the queue of its class if that has a place. -/
inductive Queued (pool : MemoryPool) (b : AlignedBuffer) (pool' : MemoryPool) : Prop
  | pushed (i : Bucket) (hfit : bestFit b.capacity = some i)
      (hplace : (pool.buckets i).length < pool.bucketCapacity)
      (hbuckets : pool'.buckets = Function.update pool.buckets i (pool.buckets i ++ [b]))
  | dropped (hplace : ∀ i, bestFit b.capacity = some i →
        ¬(pool.buckets i).length < pool.bucketCapacity)
      (hbuckets : pool'.buckets = pool.buckets)

structure Released (pool : MemoryPool) (b : AlignedBuffer) (tracked : Bool) (pool' : MemoryPool) :
    Prop where
  queued : Queued pool b pool'
  isEnabled : pool'.isEnabled = pool.isEnabled
  memoryLimit : pool'.memoryLimit = pool.memoryLimit
  inUse : ∀ i, pool'.inUse i =
    if tracked = true ∧ bestFit b.capacity = some i then fetchSub (pool.inUse i) else pool.inUse i

theorem requeue_released (pool : MemoryPool) (b : AlignedBuffer) :
    Released pool b false (requeue pool b) := by
  rw [requeue]
  cases hfit : bestFit b.capacity with
  | none => exact ⟨.dropped (by simp [hfit]) rfl,rfl,rfl,by simp⟩
  | some i =>
    dsimp only
    split_ifs with hplace
    · exact ⟨.pushed i hfit hplace rfl,rfl,rfl,by simp⟩
    · refine ⟨.dropped (fun j hj => ?_) rfl,rfl,rfl,by simp⟩
      rw [hfit] at hj
      cases hj
      exact hplace

variable {pool : MemoryPool}

theorem releaseBuffer_released (hon : pool.isEnabled = true)
    (b : AlignedBuffer) (tracked : Bool) :
    Released pool b tracked (releaseBuffer pool b b.capacity tracked) := by
  rw [releaseBuffer, if_neg (by simp [hon]), countResize, if_neg (by simp), countReturn]
  cases tracked with
  | false => exact requeue_released pool b
  | true =>
    rw [if_pos rfl]
    cases hfit : bestFit b.capacity with
    | none =>
      obtain ⟨hqueued,hmode,hlimit,hinUse⟩ := requeue_released pool b
      exact ⟨hqueued,hmode,hlimit,fun i => by simpa [hfit] using hinUse i⟩
    | some j =>
      obtain ⟨hqueued,hmode,hlimit,hinUse⟩ := requeue_released
        { pool with inUse := Function.update pool.inUse j (fetchSub (pool.inUse j)) } b
      refine ⟨?_,hmode,hlimit,fun i => ?_⟩
      · cases hqueued with
        | pushed i hfit' hplace hbuckets => exact .pushed i hfit' hplace hbuckets
        | dropped hplace hbuckets => exact .dropped hplace hbuckets
      · rw [hinUse i, if_neg (by simp)]
        dsimp only
        by_cases hi : i = j
        · subst hi
          rw [Function.update_self, if_pos ⟨rfl,hfit⟩]
        · rw [Function.update_of_ne hi, if_neg]
          rintro ⟨-,hi'⟩
          rw [hfit] at hi'
          exact hi (Option.some.inj hi').symm

/-- The bytes that a released buffer adds to the free queues. -/
def queuedBy (pool : MemoryPool) (b : AlignedBuffer) : ℕ :=
  match bestFit b.capacity with
  | some i => if (pool.buckets i).length < pool.bucketCapacity then b.capacity else 0
  | none => 0

theorem queuedBy_le (pool : MemoryPool) (b : AlignedBuffer) : queuedBy pool b ≤ b.capacity := by
  rw [queuedBy]
  split
  · split_ifs
    · exact le_rfl
    · exact Nat.zero_le _
  · exact Nat.zero_le _

variable {b : AlignedBuffer}

theorem queuedBy_pushed {i : Bucket}
    (hfit : bestFit b.capacity = some i)
    (hplace : (pool.buckets i).length < pool.bucketCapacity) :
    queuedBy pool b = b.capacity := by
  simp only [queuedBy, hfit, if_pos hplace]

theorem queuedBy_dropped (hplace : ∀ i, bestFit b.capacity = some i →
      ¬(pool.buckets i).length < pool.bucketCapacity) : queuedBy pool b = 0 := by
  rw [queuedBy]
  cases hfit : bestFit b.capacity with
  | none => rfl
  | some i => exact if_neg (hplace i hfit)

theorem Queued.bytes {pool pool' : MemoryPool} (h : Queued pool b pool') :
    queuedBytes pool' = queuedBytes pool+queuedBy pool b := by
  cases h with
  | pushed i hfit hplace hbuckets =>
    have hchange := @queuedBytes_change pool pool' i fun j hj => by
      rw [hbuckets, Function.update_of_ne hj]
    rw [hbuckets, Function.update_self, bytes_append, bytes_cons] at hchange
    simp only [Alloc.bytes, List.map_nil, List.sum_nil] at hchange
    rw [queuedBy_pushed hfit hplace]
    omega
  | dropped hplace hbuckets =>
    rw [queuedBytes, hbuckets, queuedBy_dropped hplace, queuedBytes, Nat.add_zero]

theorem Queued.mem {pool pool' : MemoryPool} {b x : AlignedBuffer} {i : Bucket}
    (h : Queued pool b pool') (hx : x ∈ pool'.buckets i) :
    x ∈ pool.buckets i ∨ x = b ∧ bestFit b.capacity = some i := by
  cases h with
  | pushed j hfit _ hbuckets =>
    rw [hbuckets] at hx
    by_cases hj : i = j
    · subst hj
      rw [Function.update_self] at hx
      exact (List.mem_append.mp hx).imp_right fun hx => ⟨List.mem_singleton.mp hx,hfit⟩
    · rw [Function.update_of_ne hj] at hx
      exact .inl hx
  | dropped _ hbuckets => exact .inl (hbuckets ▸ hx)

section Inv

variable {w : World} {h : Held}

theorem trackedBytes_perm {pool pool' : MemoryPool} {live rest : List Held}
    (hperm : live.Perm (h::rest)) : trackedBytes ⟨pool,live⟩ = trackedBytes ⟨pool',rest⟩+
      if h.buf.fromPool then h.buf.inner.capacity else 0 := by
  rw [trackedBytes, trackedBytes, liveBytes_perm (hperm.filter _), List.filter_cons]
  split_ifs with hh
  · rw [liveBytes_cons, Nat.add_comm]
  · rfl

theorem Classed.inUse_iff (hw : Classed w) (hh : h ∈ w.live) (i : Bucket) :
    InUse i h ↔ h.buf.fromPool = true ∧ bestFit h.buf.inner.capacity = some i := by
  refine and_congr_right fun _ => ⟨fun hsize => ?_,hw.sized h hh i⟩
  rw [hsize, bestFit_bucketSize]

variable {w' : World} {k : ℕ}

theorem Classed.release (hw : Classed w) (hret : w.release k = some w') :
    Classed w' ∧ w'.pool.memoryLimit = w.pool.memoryLimit ∧ ∃ h, w.live[k]? = some h ∧
      pooledBytes w'+(if h.buf.fromPool then h.buf.inner.capacity else 0) =
        pooledBytes w+queuedBy w.pool h.buf.inner := by
  obtain ⟨h,hk,hret⟩ := Option.bind_eq_some_iff.mp hret
  cases hret
  have hmem := List.mem_of_getElem? hk
  have hperm := live_perm hk
  have hsub : ∀ x ∈ w.live.eraseIdx k, x ∈ w.live := fun x hx => List.mem_of_mem_eraseIdx hx
  have hrel := releaseBuffer_released hw.isEnabled h.buf.inner h.buf.fromPool
  rw [hw.original h hmem]
  have hbytes := hrel.queued.bytes
  have hadded := queuedBy_le w.pool h.buf.inner
  have hlive := liveBytes_perm hperm
  rw [liveBytes_cons] at hlive
  refine ⟨⟨hrel.isEnabled.trans hw.isEnabled,hrel.memoryLimit ▸ hw.limit,?_,
    fun x hx => hw.original x (hsub x hx),fun x hx => hw.sized x (hsub x hx),
    fun x hx => hw.tracked x (hsub x hx),?_,?_⟩,hrel.memoryLimit,h,hk,?_⟩
  · intro i b hb
    rcases hrel.queued.mem hb with hb | ⟨rfl,hi⟩
    · exact hw.queued i b hb
    · exact hw.sized h hmem i hi
  · intro i
    have hcount := hw.counted i
    rw [hperm.countP_eq, List.countP_cons] at hcount
    have hlt := hw.count_lt i
    rw [hrel.inUse i]
    by_cases hin : InUse i h
    · rw [if_pos (decide_eq_true hin)] at hcount
      rw [if_pos ((hw.inUse_iff hmem i).mp hin), fetchSub_eq (by omega) (by omega)]
      dsimp only
      omega
    · rw [if_neg (by simpa using hin)] at hcount
      rw [if_neg fun hfit => hin ((hw.inUse_iff hmem i).mpr hfit), hcount, Nat.add_zero]
  · have hroom := hw.room
    rw [World.held] at hroom ⊢
    dsimp only
    omega
  · have htracked := @trackedBytes_perm _ w.pool (releaseBuffer w.pool h.buf.inner
      h.buf.inner.capacity h.buf.fromPool) _ _ hperm
    rw [pooledBytes, pooledBytes, hbytes, show trackedBytes w = _ from htracked]
    omega

theorem acquire_iff_hasRoom (hw : Classed w) (hb : pooledBytes w ≤ w.pool.memoryLimit)
    {build : Build} {capacity : UInt64}
    (h : w.acquire build capacity.toNat = some w') :
    pooledBytes w' ≤ w'.pool.memoryLimit ↔ HasRoom build w (.acquire capacity) := by
  obtain ⟨-,hlimit,hcases⟩ := hw.acquire capacity.toNat_lt h
  have htracked : trackedBytes w < 2^64 :=
    lt_of_le_of_lt ((Nat.le_add_right _ _).trans hb) hw.limit
  have hcurrent := hw.poolCurrentSize_eq htracked build
  rw [hlimit]
  rcases hcases with ⟨hbytes,hlarge⟩ | ⟨i,current,n,hfit,hempty,hcur,hn,hle,hbytes⟩
  · refine iff_of_true (hbytes.trans_le hb) fun i hfit hempty n hn hle => ?_
    obtain ⟨current,n',hcur,hn',hgt⟩ := hlarge i hfit hempty
    obtain rfl := Option.some.inj (hcurrent.symm.trans hcur)
    obtain rfl := Option.some.inj (hn.symm.trans hn')
    omega
  · obtain rfl := Option.some.inj (hcurrent.symm.trans hcur)
    rw [hbytes]
    constructor
    · intro hroom j hj _ _ _ _
      rw [hfit] at hj
      cases hj
      exact hroom
    · exact fun hroom => hroom i hfit hempty n hn hle

theorem release_iff_hasRoom (hw : Classed w) (hb : pooledBytes w ≤ w.pool.memoryLimit)
    (build : Build) (h : w.release k = some w') :
    pooledBytes w' ≤ w'.pool.memoryLimit ↔ HasRoom build w (.release k) := by
  obtain ⟨-,hlimit,x,hk,hbytes⟩ := hw.release h
  rw [hlimit]
  by_cases hfrom : x.buf.fromPool = true
  · rw [if_pos hfrom] at hbytes
    have hadded := queuedBy_le w.pool x.buf.inner
    refine iff_of_true (by omega) fun y hy hnot => ?_
    rw [hk] at hy
    cases hy
    rw [hfrom] at hnot
    cases hnot
  · rw [if_neg hfrom, Nat.add_zero] at hbytes
    rw [hbytes]
    constructor
    · intro hle y hy _ i hfit hplace
      rw [hk] at hy
      cases hy
      rwa [queuedBy_pushed hfit hplace] at hle
    · intro hroom
      by_cases hplace : ∃ i, bestFit x.buf.inner.capacity = some i ∧
          (w.pool.buckets i).length < w.pool.bucketCapacity
      · obtain ⟨i,hfit,hplace⟩ := hplace
        rw [queuedBy_pushed hfit hplace]
        exact hroom x hk (by simpa using hfrom) i hfit hplace
      · push Not at hplace
        rw [queuedBy_dropped fun i hfit => not_lt.mpr (hplace i hfit), Nat.add_zero]
        exact hb

end Inv

theorem Classed.call {build : Build} {w w' : World} {call : PoolCall} (hw : Classed w)
    (h : w.call build call = some w') :
    Classed w' ∧ w'.pool.memoryLimit = w.pool.memoryLimit := by
  cases call with
  | acquire capacity =>
    obtain ⟨hnext,hlimit,-⟩ := hw.acquire capacity.toNat_lt h
    exact ⟨hnext,hlimit⟩
  | release k =>
    obtain ⟨hnext,hlimit,-⟩ := hw.release h
    exact ⟨hnext,hlimit⟩

theorem classed_new {cfg : MemoryPoolConfig} (hon : cfg.enabled = true)
    (hsize : cfg.sizeBytes < 2^64) (h : MemoryPool.new cfg = some pool) :
    Classed ⟨pool,[]⟩ ∧ pool.memoryLimit = cfg.sizeBytes ∧ pooledBytes ⟨pool,[]⟩ = 0 := by
  rw [MemoryPool.new] at h
  split_ifs at h
  cases h
  refine ⟨⟨hon,hsize,by simp,by simp,by simp,by simp,by simp,?_⟩,rfl,?_⟩
  · simp [World.held, queuedBytes, liveBytes, bytes]
  · simp [pooledBytes, trackedBytes, queuedBytes, liveBytes, bytes]

/-- In a run of calls that all return, the pool holds no more than its limit in every state
exactly if each call has room for what it adds. -/
theorem pool_within_limit_iff (build : Build) {cfg : MemoryPoolConfig} {pool : MemoryPool}
    {calls : List PoolCall} {w : World} (hon : cfg.enabled = true) (hsize : cfg.sizeBytes < 2^64)
    (hnew : MemoryPool.new cfg = some pool) (hrun : runCalls build ⟨pool,[]⟩ calls = some w) :
    (∀ k v, runCalls build ⟨pool,[]⟩ (calls.take k) = some v → pooledBytes v ≤ cfg.sizeBytes) ↔
      Each (World.call build) (HasRoom build) ⟨pool,[]⟩ calls := by
  obtain ⟨hclassed,hlimit,hzero⟩ := classed_new hon hsize hnew
  have hinv : ∀ v call v', Classed v ∧ v.pool.memoryLimit = cfg.sizeBytes →
      World.call build v call = some v' → Classed v' ∧ v'.pool.memoryLimit = cfg.sizeBytes := by
    intro v call v' hv hcall
    obtain ⟨hnext,hsame⟩ := hv.1.call hcall
    exact ⟨hnext,hsame.trans hv.2⟩
  refine bound_iff_each hinv (fun v call v' hv hb hcall => ?_) ⟨hclassed,hlimit⟩
    (hzero.trans_le (Nat.zero_le _)) hrun
  obtain ⟨-,hsame⟩ := hv.1.call hcall
  rw [← hv.2] at hb
  rw [← hv.2, ← hsame]
  cases call with
  | acquire capacity => exact acquire_iff_hasRoom hv.1 hb hcall
  | release k => exact release_iff_hasRoom hv.1 hb build hcall

def eightKiB : MemoryPoolConfig := ⟨true,8192,4⟩

def eightPool : MemoryPool := (MemoryPool.new eightKiB).get (by decide)

/-- Two pages are queued again, and then a buffer of the next class is charged. -/
def refill : List PoolCall :=
  [.acquire 4096,.acquire 4096,.release 0,.release 0,.acquire 8192]

theorem refill_bytes :
    (runCalls .checked ⟨eightPool,[]⟩ refill).map pooledBytes = some 16384 := by
  decide +kernel

/-- The pool of eight KiB holds sixteen. -/
theorem refill_past_limit :
    ∃ w, runCalls .checked ⟨eightPool,[]⟩ refill = some w ∧ ¬pooledBytes w ≤ eightKiB.sizeBytes := by
  obtain ⟨w,hw,hbytes⟩ := Option.map_eq_some_iff.mp refill_bytes
  exact ⟨w,hw,by rw [hbytes]; decide⟩

theorem refill_no_room :
    MemoryPool.new eightKiB = some eightPool ∧
      ¬Each (World.call .checked) (HasRoom .checked) ⟨eightPool,[]⟩ refill := by
  have hnew : MemoryPool.new eightKiB = some eightPool := (Option.some_get _).symm
  refine ⟨hnew,fun heach => ?_⟩
  obtain ⟨w,hw,hbytes⟩ := Option.map_eq_some_iff.mp refill_bytes
  have hle := (pool_within_limit_iff .checked rfl (by decide) hnew hw).mpr heach 5 w hw
  rw [hbytes] at hle
  exact absurd hle (by decide)

end Openlake.Alloc
