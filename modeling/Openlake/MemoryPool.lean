import Mathlib

/-!
# The memory pool

Free buffers wait in queues by size class. A buffer that a caller drops goes to
the queue of the capacity it has then, and the counter of its class is found from
the capacity it had when it was handed out. Machine words are below `2^64`; a
checked build stops at an overflow and a release build wraps around.
-/

set_option autoImplicit false

namespace Openlake.Alloc

inductive Build where
  | checked
  | release
  deriving DecidableEq, Repr

/-- The result of an addition or a multiplication of machine words. -/
def Build.usize (build : Build) (n : ℕ) : Option ℕ :=
  if n < 2^64 then some n
  else match build with
    | .checked => none
    | .release => some (n%2^64)

def alignment : ℕ := 4096

def numBuckets : ℕ := 28

abbrev Bucket := Fin numBuckets

def bucketSizes : List ℕ :=
  [4*1024,8*1024,16*1024,32*1024,64*1024,128*1024,256*1024,512*1024,768*1024,1024*1024,1536*1024,
    2*1024*1024,4*1024*1024,6*1024*1024,8*1024*1024,10*1024*1024,12*1024*1024,16*1024*1024,
    24*1024*1024,32*1024*1024,48*1024*1024,64*1024*1024,96*1024*1024,128*1024*1024,192*1024*1024,
    256*1024*1024,384*1024*1024,512*1024*1024]

def bucketSize (i : Bucket) : ℕ := bucketSizes.get i

/-- The index of `x` in an ascending list, or the index where it would be inserted. -/
def binarySearch (xs : List ℕ) (x : ℕ) : Except ℕ ℕ :=
  let i := (xs.takeWhile (fun y => y < x)).length
  if xs[i]? = some x then .ok i else .error i

def bestFit (capacity : ℕ) : Option Bucket :=
  match binarySearch bucketSizes capacity with
  | .ok i => if h : i < numBuckets then some ⟨i,h⟩ else none
  | .error i => if h : i < numBuckets then some ⟨i,h⟩ else none

structure AlignedBuffer where
  capacity : ℕ
  deriving DecidableEq, Repr

structure MemoryPoolConfig where
  enabled : Bool
  sizeBytes : ℕ
  bucketCapacity : ℕ

structure MemoryPool where
  isEnabled : Bool
  memoryLimit : ℕ
  bucketCapacity : ℕ
  buckets : Bucket → List AlignedBuffer
  inUse : Bucket → ℕ
  allocations : Bucket → ℕ
  returned : Bucket → ℕ
  externalAllocations : ℕ
  externalDeallocations : ℕ
  resizeEvents : ℕ
  droppedReturns : ℕ
  capacityWarning : Bool

/-- A queue of no capacity panics. -/
def MemoryPool.new (cfg : MemoryPoolConfig) : Option MemoryPool :=
  if cfg.bucketCapacity = 0 then none
  else some {
    isEnabled := cfg.enabled
    memoryLimit := cfg.sizeBytes
    bucketCapacity := cfg.bucketCapacity
    buckets := fun _ => []
    inUse := fun _ => 0
    allocations := fun _ => 0
    returned := fun _ => 0
    externalAllocations := 0
    externalDeallocations := 0
    resizeEvents := 0
    droppedReturns := 0
    capacityWarning := false }

def fetchAdd (n : ℕ) : ℕ := (n+1)%2^64

def fetchSub (n : ℕ) : ℕ := (n+2^64-1)%2^64

section Calls

variable (build : Build)

def nextMultipleOf (n k : ℕ) : Option ℕ := if n%k = 0 then some n else build.usize (n+(k-n%k))

def alignedCapacity (capacity : ℕ) : Option ℕ :=
  (nextMultipleOf build capacity alignment).map (fun n => max n alignment)

/-- A vector of `capacity` bytes, beside `held` bytes in use. No vector is longer than
half of the address space, and no two share a byte. -/
def withRoom (held capacity : ℕ) : Option AlignedBuffer :=
  if capacity < 2^63 ∧ held+capacity ≤ 2^64 then some ⟨capacity⟩ else none

def allocateAlignedBuffer (held capacity : ℕ) : Option AlignedBuffer := do
  withRoom held (← alignedCapacity build capacity)

def poolCurrentSize (pool : MemoryPool) : Option ℕ :=
  (List.finRange numBuckets).foldlM (fun sum i => do
    build.usize (sum + (← build.usize (pool.inUse i*bucketSize i)))) 0

/-- `held` is what the process has allocated so far. -/
def acquireBuffer (held : ℕ) (pool : MemoryPool) (capacity : ℕ) :
    Option (AlignedBuffer × Bool × MemoryPool) :=
  if pool.isEnabled = false then do
    return (← allocateAlignedBuffer build held capacity,false,pool)
  else do
    let current ← poolCurrentSize build pool
    match bestFit capacity with
    | some idx =>
      match pool.buckets idx with
      | buf::rest =>
        let popped := { pool with buckets := Function.update pool.buckets idx rest }
        let inUse := Function.update pool.inUse idx (fetchAdd (pool.inUse idx))
        if buf.capacity < capacity then
          let newBuf ← allocateAlignedBuffer build (held-buf.capacity) (bucketSize idx)
          return (newBuf,true,{ popped with
            allocations := Function.update pool.allocations idx (fetchAdd (pool.allocations idx))
            inUse := inUse })
        else return (buf,true,{ popped with inUse := inUse })
      | [] =>
        if (← build.usize (current+bucketSize idx)) > pool.memoryLimit then
          let newBuf ← allocateAlignedBuffer build held (bucketSize idx)
          return (newBuf,false,{ pool with
            capacityWarning := true
            externalAllocations := fetchAdd pool.externalAllocations })
        else
          let newBuf ← allocateAlignedBuffer build held (bucketSize idx)
          return (newBuf,true,{ pool with
            allocations := Function.update pool.allocations idx (fetchAdd (pool.allocations idx))
            inUse := Function.update pool.inUse idx (fetchAdd (pool.inUse idx)) })
    | none =>
      let newBuf ← allocateAlignedBuffer build held capacity
      return (newBuf,false,{ pool with externalAllocations := fetchAdd pool.externalAllocations })

end Calls

def countResize (pool : MemoryPool) (buffer : AlignedBuffer) (originalCapacity : ℕ) : MemoryPool :=
  if buffer.capacity ≠ originalCapacity then
    { pool with resizeEvents := fetchAdd pool.resizeEvents }
  else pool

def countReturn (pool : MemoryPool) (originalCapacity : ℕ) (wasPoolAllocated : Bool) :
    MemoryPool :=
  if wasPoolAllocated then
    match bestFit originalCapacity with
    | some idx => { pool with inUse := Function.update pool.inUse idx (fetchSub (pool.inUse idx)) }
    | none => pool
  else pool

def requeue (pool : MemoryPool) (buffer : AlignedBuffer) : MemoryPool :=
  match bestFit buffer.capacity with
  | some idx =>
    let counted := { pool with
      returned := Function.update pool.returned idx (fetchAdd (pool.returned idx)) }
    if (pool.buckets idx).length < pool.bucketCapacity then
      { counted with buckets := Function.update pool.buckets idx (pool.buckets idx ++ [buffer]) }
    else
      { counted with droppedReturns := fetchAdd pool.droppedReturns, capacityWarning := true }
  | none => { pool with externalDeallocations := fetchAdd pool.externalDeallocations }

def releaseBuffer (pool : MemoryPool) (buffer : AlignedBuffer) (originalCapacity : ℕ)
    (wasPoolAllocated : Bool) : MemoryPool :=
  if pool.isEnabled = false then pool
  else requeue (countReturn (countResize pool buffer originalCapacity) originalCapacity
    wasPoolAllocated) buffer

structure PooledBuffer where
  fromPool : Bool
  originalCapacity : ℕ
  inner : AlignedBuffer
  deriving DecidableEq, Repr

structure Held where
  request : ℕ
  buf : PooledBuffer
  deriving DecidableEq, Repr

structure World where
  pool : MemoryPool
  live : List Held

inductive Call where
  | withCapacity (capacity : ℕ)
  | empty
  | grow (k capacity : ℕ)
  | drop (k : ℕ)

def bytes (buffers : List AlignedBuffer) : ℕ := (buffers.map AlignedBuffer.capacity).sum

def queuedBytes (pool : MemoryPool) : ℕ := ∑ i, bytes (pool.buckets i)

def liveBytes (live : List Held) : ℕ := bytes (live.map fun h => h.buf.inner)

def World.held (w : World) : ℕ := queuedBytes w.pool+liveBytes w.live

section Steps

variable (build : Build) (w : World)

def withCapacity (capacity : ℕ) : Option World := do
  let (buffer,wasPoolAllocated,pool) ←
    acquireBuffer build w.held w.pool (max capacity alignment)
  return ⟨pool,w.live ++ [⟨capacity,⟨wasPoolAllocated,buffer.capacity,buffer⟩⟩]⟩

def World.empty : World := { w with live := w.live ++ [⟨0,⟨false,0,⟨0⟩⟩⟩] }

/-- A vector that grows is moved to a larger one. -/
def World.grow (k capacity : ℕ) : Option World := do
  let h ← w.live[k]?
  guard (h.buf.inner.capacity ≤ capacity)
  let inner ← withRoom (w.held-h.buf.inner.capacity) capacity
  return { w with live := w.live.set k { h with buf := { h.buf with inner := inner } } }

def dropBuffer (pool : MemoryPool) (b : PooledBuffer) : MemoryPool :=
  if b.fromPool then releaseBuffer pool b.inner b.originalCapacity true else pool

def World.drop (k : ℕ) : Option World := do
  let h ← w.live[k]?
  return ⟨dropBuffer w.pool h.buf,w.live.eraseIdx k⟩

def World.step : Call → Option World
  | .withCapacity capacity => withCapacity build w capacity
  | .empty => some w.empty
  | .grow k capacity => w.grow k capacity
  | .drop k => w.drop k

end Steps

def run (build : Build) (w : World) (calls : List Call) : Option World :=
  calls.foldlM (World.step build) w

/-- The buffer is tracked and came from bucket `i`. -/
def From (i : Bucket) (h : Held) : Prop :=
  h.buf.fromPool = true ∧ bestFit (max h.request alignment) = some i

instance (i : Bucket) : DecidablePred (From i) := fun _ => inferInstanceAs (Decidable (_ ∧ _))

theorem not_of_takeWhile_length (p : ℕ → Bool) (xs : List ℕ) (i : ℕ)
    (hi : (xs.takeWhile p).length = i) (hlt : i < xs.length) : p xs[i] = false := by
  induction xs generalizing i with
  | nil => simp at hlt
  | cons x xs ih =>
    cases hx : p x with
    | false =>
      rw [List.takeWhile_cons_of_neg (by simp [hx])] at hi
      subst hi
      exact hx
    | true =>
      rw [List.takeWhile_cons_of_pos hx, List.length_cons] at hi
      subst hi
      exact ih _ rfl (by simpa using hlt)

theorem length_below_bestFit {capacity : ℕ} {i : Bucket} (h : bestFit capacity = some i) :
    (bucketSizes.takeWhile (fun y => y < capacity)).length = i := by
  simp only [bestFit, binarySearch] at h
  split at h
  all_goals
    rename_i hsearch
    split_ifs at hsearch
    cases hsearch
    split_ifs at h
    cases h
    rfl

theorem bestFit_le {capacity : ℕ} {i : Bucket} (h : bestFit capacity = some i) :
    capacity ≤ bucketSize i := by
  have hstop := not_of_takeWhile_length _ _ _ (length_below_bestFit h) i.isLt
  exact not_lt.mp (of_decide_eq_false hstop)

theorem bestFit_bucketSize (i : Bucket) : bestFit (bucketSize i) = some i := by
  revert i
  decide +kernel

theorem aligned_bucketSize (build : Build) (i : Bucket) :
    alignedCapacity build (bucketSize i) = some (bucketSize i) := by
  revert i
  cases build <;> decide +kernel

/-- A request that the alignment does not carry past the machine word. -/
def Fits (build : Build) (capacity : ℕ) : Prop := build = .release → capacity ≤ 2^64-alignment

instance (build : Build) (capacity : ℕ) : Decidable (Fits build capacity) :=
  inferInstanceAs (Decidable (_ → _))

theorem le_alignedCapacity {build : Build} {capacity n : ℕ} (hfits : Fits build capacity)
    (h : alignedCapacity build capacity = some n) : capacity ≤ n := by
  obtain ⟨m,hm,rfl⟩ := Option.map_eq_some_iff.mp h
  refine le_trans ?_ (le_max_left m alignment)
  rw [nextMultipleOf] at hm
  split_ifs at hm with hmod
  · exact (Option.some.inj hm).le
  · have hlt : 0 < capacity%alignment ∧ capacity%alignment < alignment :=
      ⟨Nat.pos_of_ne_zero hmod,Nat.mod_lt _ (by decide)⟩
    cases build with
    | checked =>
      rw [Build.usize] at hm
      split_ifs at hm
      have := Option.some.inj hm
      omega
    | release =>
      have hcap := hfits rfl
      have hsmall : capacity+(alignment-capacity%alignment) < 2^64 := by
        have : alignment < 2^64 := by decide
        omega
      rw [Build.usize, if_pos hsmall] at hm
      have := Option.some.inj hm
      omega

theorem withRoom_eq_some {held capacity : ℕ} {b : AlignedBuffer}
    (h : withRoom held capacity = some b) : b.capacity = capacity ∧ held+capacity ≤ 2^64 := by
  rw [withRoom] at h
  split_ifs at h with hroom
  cases h
  exact ⟨rfl,hroom.2⟩

section Acquired

variable (build : Build) (held : ℕ) (pool : MemoryPool) (capacity : ℕ) (buf : AlignedBuffer)
  (pool' : MemoryPool)

/-- The buffer comes from the allocator and no counter of a bucket moves. -/
structure External : Prop where
  enough : Fits build capacity → capacity ≤ buf.capacity
  room : held+buf.capacity ≤ 2^64
  buckets : pool'.buckets = pool.buckets
  inUse : pool'.inUse = pool.inUse
  isEnabled : pool'.isEnabled = pool.isEnabled

/-- The buffer counts as in use in bucket `idx`, whose queue lost the buffers `taken`. -/
structure Tracked (idx : Bucket) (taken : List AlignedBuffer) : Prop where
  isEnabled : pool.isEnabled = true
  still : pool'.isEnabled = true
  fit : bestFit capacity = some idx
  front : pool.buckets idx = taken ++ pool'.buckets idx
  others : ∀ j ≠ idx, pool'.buckets j = pool.buckets j
  source : taken = [buf] ∨
    buf.capacity = bucketSize idx ∧ held-bytes taken+buf.capacity ≤ 2^64
  enough : capacity ≤ buf.capacity
  inUse : pool'.inUse = Function.update pool.inUse idx (fetchAdd (pool.inUse idx))

/-- What an enabled pool hands out, and what becomes of its queues and counters. -/
inductive Acquired : Bool → Prop
  | external (hfit : bestFit capacity = none)
      (hbuf : allocateAlignedBuffer build held capacity = some buf)
      (hbuckets : pool'.buckets = pool.buckets) (hinUse : pool'.inUse = pool.inUse) :
      Acquired false
  | popped (i : Bucket) (b : AlignedBuffer) (rest : List AlignedBuffer)
      (hfit : bestFit capacity = some i) (hqueue : pool.buckets i = b::rest)
      (hbuf : buf = b ∧ capacity ≤ b.capacity ∨ b.capacity < capacity ∧
        allocateAlignedBuffer build (held-b.capacity) (bucketSize i) = some buf)
      (hbuckets : pool'.buckets = Function.update pool.buckets i rest)
      (hinUse : pool'.inUse = Function.update pool.inUse i (fetchAdd (pool.inUse i))) :
      Acquired true
  | refused (i : Bucket) (current n : ℕ) (hfit : bestFit capacity = some i)
      (hqueue : pool.buckets i = []) (hcurrent : poolCurrentSize build pool = some current)
      (hn : build.usize (current+bucketSize i) = some n) (hlimit : pool.memoryLimit < n)
      (hbuf : allocateAlignedBuffer build held (bucketSize i) = some buf)
      (hbuckets : pool'.buckets = pool.buckets) (hinUse : pool'.inUse = pool.inUse) :
      Acquired false
  | charged (i : Bucket) (current n : ℕ) (hfit : bestFit capacity = some i)
      (hqueue : pool.buckets i = []) (hcurrent : poolCurrentSize build pool = some current)
      (hn : build.usize (current+bucketSize i) = some n) (hlimit : n ≤ pool.memoryLimit)
      (hbuf : allocateAlignedBuffer build held (bucketSize i) = some buf)
      (hbuckets : pool'.buckets = pool.buckets)
      (hinUse : pool'.inUse = Function.update pool.inUse i (fetchAdd (pool.inUse i))) :
      Acquired true

variable {build held pool capacity buf pool'}

theorem allocate_external (h : allocateAlignedBuffer build held capacity = some buf) :
    (Fits build capacity → capacity ≤ buf.capacity) ∧ held+buf.capacity ≤ 2^64 := by
  obtain ⟨n,hn,hroom⟩ := Option.bind_eq_some_iff.mp h
  obtain ⟨hcap,hle⟩ := withRoom_eq_some hroom
  rw [hcap]
  exact ⟨fun hfits => le_alignedCapacity hfits hn,hle⟩

theorem allocate_bucket {idx : Bucket}
    (h : allocateAlignedBuffer build held (bucketSize idx) = some buf) :
    buf.capacity = bucketSize idx ∧ held+buf.capacity ≤ 2^64 := by
  rw [allocateAlignedBuffer, aligned_bucketSize, Option.bind_eq_bind, Option.bind_some] at h
  obtain ⟨hcap,hle⟩ := withRoom_eq_some h
  exact ⟨hcap,hcap ▸ hle⟩

theorem acquireBuffer_acquired {tracked : Bool} (hon : pool.isEnabled = true)
    (h : acquireBuffer build held pool capacity = some (buf,tracked,pool')) :
    Acquired build held pool capacity buf pool' tracked ∧
      pool'.isEnabled = pool.isEnabled ∧ pool'.memoryLimit = pool.memoryLimit := by
  rw [acquireBuffer, if_neg (by simp [hon])] at h
  obtain ⟨current,hcurrent,h⟩ := Option.bind_eq_some_iff.mp h
  cases hfit : bestFit capacity with
  | none =>
    rw [hfit] at h
    obtain ⟨b,hb,hret⟩ := Option.bind_eq_some_iff.mp h
    cases hret
    exact ⟨.external hfit hb rfl rfl,rfl,rfl⟩
  | some i =>
    rw [hfit] at h
    cases hqueue : pool.buckets i with
    | cons b rest =>
      simp only [hqueue] at h
      split_ifs at h with hsmall
      · obtain ⟨new,hnew,hret⟩ := Option.bind_eq_some_iff.mp h
        cases hret
        exact ⟨.popped i b rest hfit hqueue (.inr ⟨hsmall,hnew⟩) rfl rfl,rfl,rfl⟩
      · cases h
        exact ⟨.popped i buf rest hfit hqueue (.inl ⟨rfl,not_lt.mp hsmall⟩) rfl rfl,rfl,rfl⟩
    | nil =>
      simp only [hqueue] at h
      obtain ⟨n,hn,h⟩ := Option.bind_eq_some_iff.mp h
      split_ifs at h with hlimit
      · obtain ⟨new,hnew,hret⟩ := Option.bind_eq_some_iff.mp h
        cases hret
        exact ⟨.refused i current n hfit hqueue hcurrent hn hlimit hnew rfl rfl,rfl,rfl⟩
      · obtain ⟨new,hnew,hret⟩ := Option.bind_eq_some_iff.mp h
        cases hret
        exact ⟨.charged i current n hfit hqueue hcurrent hn (not_lt.mp hlimit) hnew rfl rfl,
          rfl,rfl⟩

theorem acquireBuffer_cases {tracked : Bool}
    (h : acquireBuffer build held pool capacity = some (buf,tracked,pool')) :
    tracked = false ∧ External build held pool capacity buf pool' ∨
      tracked = true ∧ ∃ idx taken, Tracked held pool capacity buf pool' idx taken := by
  by_cases hon : pool.isEnabled = true
  swap
  · rw [acquireBuffer, if_pos (by simpa using hon)] at h
    obtain ⟨b,hb,hret⟩ := Option.bind_eq_some_iff.mp h
    cases hret
    obtain ⟨henough,hroom⟩ := allocate_external hb
    exact .inl ⟨rfl,henough,hroom,rfl,rfl,rfl⟩
  obtain ⟨hcases,hsame,-⟩ := acquireBuffer_acquired hon h
  cases hcases with
  | external hfit hbuf hbuckets hinUse =>
    obtain ⟨henough,hroom⟩ := allocate_external hbuf
    exact .inl ⟨rfl,henough,hroom,hbuckets,hinUse,hsame⟩
  | popped idx b rest hfit hqueue hbuf hbuckets hinUse =>
    have hfront : pool.buckets idx = [b] ++ pool'.buckets idx := by
      rw [hqueue, hbuckets, Function.update_self, List.singleton_append]
    have hothers : ∀ j ≠ idx, pool'.buckets j = pool.buckets j := fun j hj => by
      rw [hbuckets, Function.update_of_ne hj]
    rcases hbuf with ⟨rfl,hbig⟩ | ⟨-,hnew⟩
    · exact .inr ⟨rfl,idx,[buf],hon,hsame.trans hon,hfit,hfront,hothers,.inl rfl,hbig,hinUse⟩
    · -- the queued buffer is too small and is given up for a new one
      obtain ⟨hcap,hroom⟩ := allocate_bucket hnew
      exact .inr ⟨rfl,idx,[b],hon,hsame.trans hon,hfit,hfront,hothers,
        .inr ⟨hcap,by simpa [bytes] using hroom⟩,hcap ▸ bestFit_le hfit,hinUse⟩
  | refused idx current n hfit _ _ _ _ hbuf hbuckets hinUse =>
    obtain ⟨hcap,hroom⟩ := allocate_bucket hbuf
    exact .inl ⟨rfl,fun _ => hcap ▸ bestFit_le hfit,hroom,hbuckets,hinUse,hsame⟩
  | charged idx current n hfit hqueue _ _ _ hbuf hbuckets hinUse =>
    obtain ⟨hcap,hroom⟩ := allocate_bucket hbuf
    exact .inr ⟨rfl,idx,[],hon,hsame.trans hon,hfit,by rw [hbuckets]; rfl,fun j _ => by rw [hbuckets],
      .inr ⟨hcap,by simpa [bytes] using hroom⟩,hcap ▸ bestFit_le hfit,hinUse⟩

end Acquired

end Openlake.Alloc
