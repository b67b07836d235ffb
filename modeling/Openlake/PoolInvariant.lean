import Openlake.MemoryPool

/-!
# What the counters of the pool count

The counter of a bucket is found from the capacity a buffer had when it was
handed out. A queue holds only buffers of its class, so that is the bucket the
buffer came from, whatever the buffer grows to before it is dropped.
-/

set_option autoImplicit false

namespace Openlake.Alloc

structure Inv (w : World) : Prop where
  queued : ∀ i, ∀ b ∈ w.pool.buckets i, bestFit b.capacity = some i ∧ alignment ≤ b.capacity
  enough : ∀ h ∈ w.live,
    h.request ≤ h.buf.originalCapacity ∧ h.buf.originalCapacity ≤ h.buf.inner.capacity
  tracked : ∀ h ∈ w.live, h.buf.fromPool = true → w.pool.isEnabled = true ∧
    alignment ≤ h.buf.originalCapacity ∧ ∃ i, From i h ∧ bestFit h.buf.originalCapacity = some i
  counted : ∀ i, w.pool.inUse i = w.live.countP (From i)
  room : w.held ≤ 2^64

theorem bytes_cons (b : AlignedBuffer) (buffers : List AlignedBuffer) :
    bytes (b::buffers) = b.capacity+bytes buffers := List.sum_cons

theorem bytes_append (as bs : List AlignedBuffer) : bytes (as ++ bs) = bytes as+bytes bs := by
  rw [bytes, List.map_append, List.sum_append]
  rfl

theorem liveBytes_cons (h : Held) (live : List Held) :
    liveBytes (h::live) = h.buf.inner.capacity+liveBytes live := List.sum_cons

theorem liveBytes_perm {live live' : List Held} (h : live.Perm live') :
    liveBytes live = liveBytes live' := ((h.map _).map _).sum_eq

theorem queuedBytes_change {pool pool' : MemoryPool} {i : Bucket}
    (h : ∀ j ≠ i, pool'.buckets j = pool.buckets j) :
    queuedBytes pool'+bytes (pool.buckets i) = queuedBytes pool+bytes (pool'.buckets i) := by
  have hrest : ∑ j ∈ Finset.univ.erase i, bytes (pool'.buckets j) =
      ∑ j ∈ Finset.univ.erase i, bytes (pool.buckets j) :=
    Finset.sum_congr rfl fun j hj => by rw [h j (Finset.ne_of_mem_erase hj)]
  have hnew := Finset.add_sum_erase Finset.univ (fun j => bytes (pool'.buckets j))
    (Finset.mem_univ i)
  have hold := Finset.add_sum_erase Finset.univ (fun j => bytes (pool.buckets j))
    (Finset.mem_univ i)
  simp only [queuedBytes]
  omega

variable {live : List Held} {k : ℕ}

theorem live_perm {h : Held} (hk : live[k]? = some h) :
    live.Perm (h::live.eraseIdx k) := by
  obtain ⟨hlt,rfl⟩ := List.getElem?_eq_some_iff.mp hk
  exact (List.getElem_cons_eraseIdx_perm hlt).symm

theorem set_perm {h h' : Held} (hk : live[k]? = some h) :
    (live.set k h').Perm (h'::live.eraseIdx k) := by
  obtain ⟨hlt,-⟩ := List.getElem?_eq_some_iff.mp hk
  exact List.set_perm_cons_eraseIdx hlt h'

theorem Inv.count_lt {w : World} (hw : Inv w) (i : Bucket) : w.pool.inUse i+1 < 2^64 := by
  have hpages : ∀ live : List Held,
      (∀ h ∈ live, h.buf.fromPool = true → alignment ≤ h.buf.inner.capacity) →
        alignment*live.countP (From i) ≤ liveBytes live := by
    intro live
    induction live with
    | nil => simp
    | cons h live ih =>
      intro hall
      have htail := ih fun x hx => hall x (List.mem_cons_of_mem _ hx)
      rw [liveBytes_cons, List.countP_cons, Nat.mul_add]
      split_ifs with hfrom
      · have hpage := hall h List.mem_cons_self (of_decide_eq_true hfrom).1
        omega
      · omega
  have hlive := hpages w.live fun h hh htracked =>
    (hw.tracked h hh htracked).2.1.trans (hw.enough h hh).2
  have hroom := hw.room
  rw [World.held] at hroom
  rw [hw.counted, alignment] at *
  omega

variable {n : ℕ}

theorem fetchAdd_eq (h : n+1 < 2^64) : fetchAdd n = n+1 := Nat.mod_eq_of_lt h

theorem fetchSub_eq (hpos : 0 < n) (h : n < 2^64) : fetchSub n = n-1 := by
  rw [fetchSub]
  omega

section Steps

variable {w : World} {pool : MemoryPool}

theorem Inv.acquired (hw : Inv w) {h : Held}
    (hqueued : ∀ i, ∀ b ∈ pool.buckets i, bestFit b.capacity = some i ∧ alignment ≤ b.capacity)
    (henough : h.request ≤ h.buf.originalCapacity ∧
      h.buf.originalCapacity ≤ h.buf.inner.capacity)
    (hmode : pool.isEnabled = w.pool.isEnabled)
    (htracked : h.buf.fromPool = true → pool.isEnabled = true ∧
      alignment ≤ h.buf.originalCapacity ∧ ∃ i, From i h ∧ bestFit h.buf.originalCapacity = some i)
    (hcounted : ∀ i, pool.inUse i = w.pool.inUse i+if From i h then 1 else 0)
    (hroom : World.held ⟨pool,w.live ++ [h]⟩ ≤ 2^64) : Inv ⟨pool,w.live ++ [h]⟩ := by
  refine ⟨hqueued,?_,?_,?_,hroom⟩
  · intro x hx
    rcases List.mem_append.mp hx with hx | hx
    · exact hw.enough x hx
    · rw [List.mem_singleton.mp hx]
      exact henough
  · intro x hx hfrom
    rcases List.mem_append.mp hx with hx | hx
    · obtain ⟨hon,hrest⟩ := hw.tracked x hx hfrom
      exact ⟨hmode.trans hon,hrest⟩
    · rw [List.mem_singleton.mp hx] at hfrom ⊢
      exact htracked hfrom
  · intro i
    rw [hcounted, hw.counted, List.countP_append, List.countP_singleton]
    simp

theorem held_append (pool : MemoryPool) (live : List Held) (h : Held) :
    World.held ⟨pool,live ++ [h]⟩ = queuedBytes pool+(liveBytes live+h.buf.inner.capacity) := by
  show queuedBytes pool+liveBytes (live ++ [h]) = _
  rw [liveBytes_perm (List.perm_append_singleton h live), liveBytes_cons, Nat.add_comm]
  omega

variable {w' : World}

theorem Inv.withCapacity (hw : Inv w) {build : Build} {capacity : ℕ}
    (hfits : Fits build capacity) (h : withCapacity build w capacity = some w') : Inv w' := by
  obtain ⟨⟨buffer,tracked,pool⟩,hacquire,hret⟩ := Option.bind_eq_some_iff.mp h
  cases hret
  have hmax : Fits build (max capacity alignment) := fun hb =>
    max_le (hfits hb) (by decide)
  have hheld : w.held = queuedBytes w.pool+liveBytes w.live := rfl
  rcases acquireBuffer_cases hacquire with ⟨rfl,hext⟩ | ⟨rfl,idx,taken,ht⟩
  · refine hw.acquired ?_ ⟨(le_max_left _ _).trans (hext.enough hmax),le_rfl⟩ hext.isEnabled
      (by simp) ?_ ?_
    · rw [hext.buckets]
      exact hw.queued
    · intro i
      rw [hext.inUse, if_neg (by simp [From]), Nat.add_zero]
    · have hroom := hext.room
      have hsame : queuedBytes pool = queuedBytes w.pool := by
        rw [queuedBytes, hext.buckets, queuedBytes]
      rw [held_append, hsame]
      show queuedBytes w.pool+(liveBytes w.live+buffer.capacity) ≤ 2^64
      omega
  · have hbuf : bestFit buffer.capacity = some idx ∧ alignment ≤ buffer.capacity := by
      refine ⟨?_,(le_max_right _ _).trans ht.enough⟩
      rcases ht.source with htaken | ⟨hcap,-⟩
      · refine (hw.queued idx buffer ?_).1
        rw [ht.front, htaken]
        exact List.mem_cons_self
      · rw [hcap, bestFit_bucketSize]
    refine hw.acquired ?_ ⟨(le_max_left _ _).trans ht.enough,le_rfl⟩ (ht.still.trans
      ht.isEnabled.symm) (fun _ => ⟨ht.still,hbuf.2,idx,⟨rfl,ht.fit⟩,hbuf.1⟩) ?_ ?_
    · intro i b hb
      by_cases hi : i = idx
      · subst hi
        exact hw.queued i b (ht.front ▸ List.mem_append_right _ hb)
      · rw [ht.others i hi] at hb
        exact hw.queued i b hb
    · intro i
      rw [ht.inUse]
      by_cases hi : i = idx
      · subst hi
        rw [Function.update_self, fetchAdd_eq (hw.count_lt i), if_pos ⟨rfl,ht.fit⟩]
      · rw [Function.update_of_ne hi, if_neg fun hfrom => hi ?_, Nat.add_zero]
        exact Option.some.inj (hfrom.2.symm.trans ht.fit)
    · have hchange := queuedBytes_change ht.others
      have hroom := hw.room
      rw [ht.front, bytes_append] at hchange
      rw [held_append]
      show queuedBytes pool+(liveBytes w.live+buffer.capacity) ≤ 2^64
      rcases ht.source with htaken | ⟨-,hnew⟩
      · rw [htaken, bytes_cons] at hchange
        omega
      · omega

theorem Inv.empty (hw : Inv w) : Inv w.empty := by
  have hfrom : ∀ i, ¬From i ⟨0,⟨false,0,⟨0⟩⟩⟩ := by simp [From]
  refine hw.acquired hw.queued ⟨le_rfl,le_rfl⟩ rfl (by simp) (fun i => ?_) ?_
  · rw [if_neg (hfrom i), Nat.add_zero]
  · rw [held_append]
    exact hw.room

theorem Inv.grow (hw : Inv w) {k capacity : ℕ} (h : w.grow k capacity = some w') :
    Inv w' := by
  obtain ⟨x,hx,h⟩ := Option.bind_eq_some_iff.mp h
  obtain ⟨u,hle,h⟩ := Option.bind_eq_some_iff.mp h
  obtain ⟨inner,hinner,hret⟩ := Option.bind_eq_some_iff.mp h
  cases hret
  have hgrown : x.buf.inner.capacity ≤ capacity := by simpa [guard] using hle
  obtain ⟨hcap,hroom⟩ := withRoom_eq_some hinner
  have hxmem := List.mem_of_getElem? hx
  have hold := live_perm hx
  have hset := @set_perm w.live k x { x with buf := { x.buf with inner := inner } } hx
  have hrest : ∀ y ∈ w.live.set k { x with buf := { x.buf with inner := inner } },
      y = { x with buf := { x.buf with inner := inner } } ∨ y ∈ w.live := by
    intro y hy
    rcases List.mem_cons.mp (hset.mem_iff.mp hy) with hy | hy
    · exact .inl hy
    · exact .inr (hold.mem_iff.mpr (List.mem_cons_of_mem _ hy))
  refine ⟨hw.queued,?_,?_,?_,?_⟩
  · intro y hy
    rcases hrest y hy with rfl | hy
    · obtain ⟨hrequest,hcapacity⟩ := hw.enough x hxmem
      exact ⟨hrequest,hcapacity.trans (hgrown.trans hcap.ge)⟩
    · exact hw.enough y hy
  · intro y hy
    rcases hrest y hy with rfl | hy
    · exact hw.tracked x hxmem
    · exact hw.tracked y hy
  · intro i
    rw [hw.counted i, hset.countP_eq, hold.countP_eq, List.countP_cons, List.countP_cons]
    rfl
  · have hlive := liveBytes_perm hold
    rw [liveBytes_cons] at hlive
    have hheld : w.held = queuedBytes w.pool+liveBytes w.live := rfl
    rw [World.held, liveBytes_perm hset, liveBytes_cons]
    show queuedBytes w.pool+(inner.capacity+_) ≤ 2^64
    omega

/-- The buffer joins the queue of its class, or no queue, and its bucket counts one less. -/
structure Returned (pool : MemoryPool) (b : PooledBuffer) (i : Bucket) (pool' : MemoryPool) :
    Prop where
  inUse : pool'.inUse = Function.update pool.inUse i (fetchSub (pool.inUse i))
  isEnabled : pool'.isEnabled = pool.isEnabled
  buckets : pool'.buckets = pool.buckets ∨ ∃ idx, bestFit b.inner.capacity = some idx ∧
    pool'.buckets = Function.update pool.buckets idx (pool.buckets idx ++ [b.inner])

theorem requeue_returned (pool : MemoryPool) (b : PooledBuffer) :
    (requeue pool b.inner).inUse = pool.inUse ∧
    (requeue pool b.inner).isEnabled = pool.isEnabled ∧
    ((requeue pool b.inner).buckets = pool.buckets ∨ ∃ idx, bestFit b.inner.capacity = some idx ∧
      (requeue pool b.inner).buckets =
        Function.update pool.buckets idx (pool.buckets idx ++ [b.inner])) := by
  rw [requeue]
  split
  · rename_i idx hfit
    dsimp only
    split_ifs
    · exact ⟨rfl,rfl,.inr ⟨idx,hfit,rfl⟩⟩
    · exact ⟨rfl,rfl,.inl rfl⟩
  · exact ⟨rfl,rfl,.inl rfl⟩

variable {b : PooledBuffer} {i : Bucket}

theorem dropBuffer_returned (hon : pool.isEnabled = true) (hfrom : b.fromPool = true)
    (hfit : bestFit b.originalCapacity = some i) : Returned pool b i (dropBuffer pool b) := by
  obtain ⟨hinUse,hmode,hbuckets⟩ := requeue_returned
    (countReturn (countResize pool b.inner b.originalCapacity) b.originalCapacity true) b
  rw [dropBuffer, if_pos hfrom, releaseBuffer, if_neg (by simp [hon])]
  have hcounted : (countReturn (countResize pool b.inner b.originalCapacity) b.originalCapacity
        true).inUse = Function.update pool.inUse i (fetchSub (pool.inUse i)) ∧
      (countReturn (countResize pool b.inner b.originalCapacity) b.originalCapacity
        true).isEnabled = pool.isEnabled ∧
      (countReturn (countResize pool b.inner b.originalCapacity) b.originalCapacity
        true).buckets = pool.buckets := by
    rw [countReturn, if_pos rfl, hfit, countResize]
    dsimp only
    split_ifs <;> exact ⟨rfl,rfl,rfl⟩
  obtain ⟨hu,he,hb⟩ := hcounted
  rw [hb] at hbuckets
  exact ⟨hinUse.trans hu,hmode.trans he,hbuckets⟩

theorem Returned.bytes_le {pool pool' : MemoryPool}
    (h : Returned pool b i pool') : queuedBytes pool' ≤ queuedBytes pool+b.inner.capacity := by
  rcases h.buckets with hsame | ⟨idx,-,hnew⟩
  · rw [queuedBytes, hsame]
    exact Nat.le_add_right _ _
  · have hchange := @queuedBytes_change pool pool' idx fun j hj => by
      rw [hnew, Function.update_of_ne hj]
    rw [hnew, Function.update_self, bytes_append, bytes_cons] at hchange
    simp only [bytes, List.map_nil, List.sum_nil] at hchange
    omega

theorem Returned.queued {pool pool' : MemoryPool} {i j : Bucket}
    (h : Returned pool b i pool') {x : AlignedBuffer} (hx : x ∈ pool'.buckets j) :
    x ∈ pool.buckets j ∨ x = b.inner ∧ bestFit b.inner.capacity = some j := by
  rcases h.buckets with hsame | ⟨idx,hidx,hnew⟩
  · exact .inl (hsame ▸ hx)
  · rw [hnew] at hx
    by_cases hj : j = idx
    · subst hj
      rw [Function.update_self] at hx
      rcases List.mem_append.mp hx with hx | hx
      · exact .inl hx
      · exact .inr ⟨List.mem_singleton.mp hx,hidx⟩
    · rw [Function.update_of_ne hj] at hx
      exact .inl hx

/-- The rest of the live buffers after a tracked one is dropped. The counter found from
its first capacity is that of the bucket it came from. -/
theorem Inv.returned (hw : Inv w) {x : Held} {rest : List Held}
    (hx : x ∈ w.live) (hperm : w.live.Perm (x::rest)) (hi : From i x)
    (hret : Returned w.pool x.buf i pool) : Inv ⟨pool,rest⟩ := by
  have hsub : ∀ y ∈ rest, y ∈ w.live := fun y hy => hperm.mem_iff.mpr (List.mem_cons_of_mem _ hy)
  have hlive := liveBytes_perm hperm
  rw [liveBytes_cons] at hlive
  refine ⟨?_,fun y hy => hw.enough y (hsub y hy),?_,?_,?_⟩
  · intro j b hb
    rcases hret.queued hb with hb | ⟨rfl,hj⟩
    · exact hw.queued j b hb
    · exact ⟨hj,(hw.tracked x hx hi.1).2.1.trans (hw.enough x hx).2⟩
  · intro y hy hfrom
    obtain ⟨hon,hrest⟩ := hw.tracked y (hsub y hy) hfrom
    exact ⟨hret.isEnabled.trans hon,hrest⟩
  · intro j
    have hcount := hw.counted j
    rw [hperm.countP_eq, List.countP_cons] at hcount
    show pool.inUse j = rest.countP (From j)
    rw [hret.inUse]
    by_cases hj : j = i
    · subst hj
      have hlt := hw.count_lt j
      rw [if_pos (decide_eq_true hi)] at hcount
      rw [Function.update_self, fetchSub_eq (by omega) (by omega)]
      omega
    · have hother : ¬From j x := fun hfrom => hj (Option.some.inj (hfrom.2.symm.trans hi.2))
      rw [if_neg (by simpa using hother)] at hcount
      rw [Function.update_of_ne hj, hcount, Nat.add_zero]
  · have hbytes := hret.bytes_le
    have hroom := hw.room
    rw [World.held] at hroom
    show queuedBytes pool+liveBytes rest ≤ 2^64
    omega

theorem Inv.drop (hw : Inv w) {k : ℕ} (h : w.drop k = some w') : Inv w' := by
  obtain ⟨x,hx,hret⟩ := Option.bind_eq_some_iff.mp h
  cases hret
  have hxmem := List.mem_of_getElem? hx
  by_cases hfrom : x.buf.fromPool = true
  · obtain ⟨hon,-,i,hi,hfit⟩ := hw.tracked x hxmem hfrom
    exact hw.returned hxmem (live_perm hx) hi (dropBuffer_returned hon hfrom hfit)
  · have hsub : ∀ y ∈ w.live.eraseIdx k, y ∈ w.live := fun y hy => List.mem_of_mem_eraseIdx hy
    have hroom := hw.room
    have hlive := liveBytes_perm (live_perm hx)
    rw [liveBytes_cons] at hlive
    rw [World.held] at hroom
    rw [dropBuffer, if_neg hfrom]
    refine ⟨hw.queued,fun y hy => hw.enough y (hsub y hy),fun y hy => hw.tracked y (hsub y hy),?_,?_⟩
    · intro j
      have hcount := hw.counted j
      rw [(live_perm hx).countP_eq, List.countP_cons, if_neg (by simp [From, hfrom])] at hcount
      exact hcount
    · show queuedBytes w.pool+liveBytes (w.live.eraseIdx k) ≤ 2^64
      omega

end Steps

/-- The call asks for no more than the alignment can round up. -/
def Call.Fits (build : Build) : Call → Prop
  | .withCapacity capacity => Alloc.Fits build capacity
  | _ => True

variable {build : Build} {w w' : World}

theorem Inv.step {call : Call} (hw : Inv w)
    (hfits : call.Fits build) (h : World.step build w call = some w') : Inv w' := by
  cases call with
  | withCapacity capacity => exact hw.withCapacity hfits h
  | empty =>
    cases h
    exact hw.empty
  | grow k capacity => exact hw.grow h
  | drop k => exact hw.drop h

theorem Inv.run {calls : List Call} (hw : Inv w)
    (hfits : ∀ call ∈ calls, call.Fits build) (h : run build w calls = some w') : Inv w' := by
  induction calls generalizing w with
  | nil =>
    cases h
    exact hw
  | cons call calls ih =>
    rw [Alloc.run, List.foldlM_cons] at h
    obtain ⟨next,hnext,hrest⟩ := Option.bind_eq_some_iff.mp h
    exact ih (hw.step (hfits call List.mem_cons_self) hnext)
      (fun c hc => hfits c (List.mem_cons_of_mem _ hc)) hrest

theorem inv_new {cfg : MemoryPoolConfig} {pool : MemoryPool} (h : MemoryPool.new cfg = some pool) :
    Inv ⟨pool,[]⟩ := by
  rw [MemoryPool.new] at h
  split_ifs at h
  cases h
  exact ⟨by simp,by simp,by simp,by simp,by simp [World.held, queuedBytes, liveBytes, bytes]⟩

/-- What the pool promises of its buffers and of its counters. -/
structure Accounted (w : World) : Prop where
  enough : ∀ h ∈ w.live,
    h.request ≤ h.buf.originalCapacity ∧ h.buf.originalCapacity ≤ h.buf.inner.capacity
  queued : ∀ i, ∀ b ∈ w.pool.buckets i, bestFit b.capacity = some i
  inUse : ∀ i, w.pool.inUse i = w.live.countP (From i)
  release : ∀ h ∈ w.live, h.buf.fromPool = true →
    ∃ i, bestFit h.buf.originalCapacity = some i ∧ 0 < w.pool.inUse i

/-- In every run of requests that the alignment can round up, buffers are as large as asked
for, queues hold their own class, and no counter of buffers in use ever underflows. -/
theorem pooled_buffers_accounted (build : Build) {cfg : MemoryPoolConfig} {pool : MemoryPool}
    {calls : List Call} {w : World} (hnew : MemoryPool.new cfg = some pool)
    (hfits : ∀ call ∈ calls, call.Fits build) (hrun : run build ⟨pool,[]⟩ calls = some w) :
    Accounted w := by
  have hw := (inv_new hnew).run hfits hrun
  refine ⟨hw.enough,fun i b hb => (hw.queued i b hb).1,hw.counted,?_⟩
  intro h hh hfrom
  obtain ⟨-,-,i,hi,hfit⟩ := hw.tracked h hh hfrom
  refine ⟨i,hfit,?_⟩
  rw [hw.counted]
  exact List.countP_pos_iff.mpr ⟨h,hh,decide_eq_true hi⟩

def smallConfig : MemoryPoolConfig := ⟨true,65536,2⟩

def smallPool : MemoryPool := (MemoryPool.new smallConfig).get (by decide)

/-- A buffer grows past its class, is queued in another one and is used again from there. -/
def growing : List Call :=
  [.withCapacity 5000,.withCapacity 5000,.grow 0 20000,.drop 0,.withCapacity 17000]

theorem growing_accounted :
    (run .release ⟨smallPool,[]⟩ growing).map World.live =
        some [⟨5000,⟨true,8192,⟨8192⟩⟩⟩,⟨17000,⟨true,20000,⟨20000⟩⟩⟩] ∧
      ∀ w, run .release ⟨smallPool,[]⟩ growing = some w → Accounted w := by
  refine ⟨by decide +kernel,fun w hw => ?_⟩
  exact @pooled_buffers_accounted .release smallConfig smallPool growing w
    (Option.some_get _).symm (by simp [growing, Call.Fits, Fits, alignment]) hw

/-- Rounding the largest request up wraps to nothing, and a page is handed out for it. -/
theorem largest_request_page :
    (run .release ⟨smallPool,[]⟩ [.withCapacity (2^64-1)]).map World.live =
        some [⟨2^64-1,⟨false,4096,⟨4096⟩⟩⟩] ∧
      4096 < 2^64-1 := by
  decide +kernel

end Openlake.Alloc
