import Openlake.Lib.GuardedRuns
import Openlake.Lib.Ring

/-!
# Send buffers

The send buffers of a socket are a ring with two counters: buffers are handed out
at `front` and each completion or failed post moves `tail`, whichever buffer it
was for. A caller that finds no buffer waits and is handed one later; other
callers may run before it wakes up. The buffer freed is that of the send that
ended as long as sends are posted and end in the order their buffers were handed
out.
-/

set_option autoImplicit false

namespace Openlake.Rdma

structure Waiter where
  caller : ℕ
  cancelled : Bool
  deriving DecidableEq, Repr

structure SendBuffers where
  bufCnt : ℕ
  front : ℕ
  tail : ℕ
  waiters : List Waiter
  deriving DecidableEq, Repr

def SendBuffers.new (bufCnt : ℕ) : SendBuffers := ⟨bufCnt,0,bufCnt,[]⟩

def SendBuffers.tryPop (s : SendBuffers) : Option (ℕ × SendBuffers) :=
  if s.tail ≤ s.front then none else some (s.front,{ s with front := s.front+1 })

structure Grant where
  caller : ℕ
  ticket : ℕ
  deriving DecidableEq, Repr

/-- Waiters are served while a buffer is free; one that gave up leaves it for the next. -/
def serve (front tail : ℕ) : List Waiter → ℕ × List Waiter × List Grant
  | [] => (front,[],[])
  | w::ws =>
    if tail ≤ front then (front,w::ws,[])
    else if w.cancelled then serve front tail ws
    else
      let (front',rest,grants) := serve (front+1) tail ws
      (front',rest,⟨w.caller,front⟩::grants)

def SendBuffers.push (s : SendBuffers) (n : ℕ) : SendBuffers × List Grant :=
  let (front,waiters,grants) := serve s.front (s.tail+n) s.waiters
  ({ s with front := front, tail := s.tail+n, waiters := waiters },grants)

/-- `woken` waiters were sent a buffer and have not run since; callers in `holding` have a
buffer they did not post yet; `posted` sends wait for their completion. -/
structure Socket where
  bufs : SendBuffers
  calls : ℕ
  woken : List Grant
  holding : List Grant
  posted : List Grant
  deriving DecidableEq, Repr

def Socket.new (bufCnt : ℕ) : Socket := ⟨.new bufCnt,0,[],[],[]⟩

inductive Event where
  | acquire
  | cancel (caller : ℕ)
  | wake (caller : ℕ)
  | post (caller : ℕ)
  | failedPost (caller : ℕ)
  | completion
  deriving DecidableEq, Repr

def of (caller : ℕ) (grants : List Grant) : Option Grant :=
  grants.find? (fun g => g.caller = caller)

section Steps

variable (s : Socket)

def Socket.slot (g : Grant) : ℕ := g.ticket%s.bufs.bufCnt

def Socket.push : Socket :=
  let (bufs,grants) := s.bufs.push 1
  { s with bufs := bufs, woken := s.woken ++ grants }

def Socket.acquire : Socket :=
  match s.bufs.tryPop with
  | some (ticket,bufs) =>
    { s with bufs := bufs, calls := s.calls+1, holding := s.holding ++ [⟨s.calls,ticket⟩] }
  | none =>
    { s with
      bufs := { s.bufs with waiters := s.bufs.waiters ++ [⟨s.calls,false⟩] }
      calls := s.calls+1 }

def Socket.next : Event → Socket
  | .acquire => s.acquire
  | .cancel caller =>
    { s with bufs := { s.bufs with waiters := s.bufs.waiters.map (fun w =>
      if w.caller = caller then { w with cancelled := true } else w) } }
  | .wake caller =>
    match of caller s.woken with
    | some g => { s with woken := s.woken.erase g, holding := s.holding ++ [g] }
    | none => s
  | .post caller =>
    match of caller s.holding with
    | some g => { s with holding := s.holding.erase g, posted := s.posted ++ [g] }
    | none => s
  | .failedPost caller =>
    match of caller s.holding with
    | some g => Socket.push { s with holding := s.holding.erase g }
    | none => s
  | .completion =>
    match s.posted with
    | _::rest => Socket.push { s with posted := rest }
    | [] => s

def Socket.returned : Event → Option ℕ
  | .acquire => s.bufs.tryPop.map (fun p => p.1%s.bufs.bufCnt)
  | .wake caller => (of caller s.woken).map s.slot
  | _ => none

/-- No caller whose send is not over has the buffer that acquire returns. -/
def Safe (e : Event) : Prop := ∀ idx ∈ s.returned e, idx ∉ (s.holding ++ s.posted).map s.slot

/-- Sends are posted in the order their buffers were handed out, and a post fails only
when no earlier send is outstanding. -/
def InOrder : Event → Prop
  | .post caller => ∀ g ∈ of caller s.holding, ∀ g' ∈ s.woken ++ s.holding, g.ticket ≤ g'.ticket
  | .failedPost caller => ∀ g ∈ of caller s.holding,
      ∀ g' ∈ s.woken ++ s.holding ++ s.posted, g.ticket ≤ g'.ticket
  | _ => True

end Steps

instance (s : Socket) (e : Event) : Decidable (Safe s e) :=
  inferInstanceAs (Decidable (∀ idx ∈ s.returned e, idx ∉ (s.holding ++ s.posted).map s.slot))

instance (s : Socket) : (e : Event) → Decidable (InOrder s e)
  | .post caller => inferInstanceAs (Decidable (∀ g ∈ of caller s.holding,
      ∀ g' ∈ s.woken ++ s.holding, g.ticket ≤ g'.ticket))
  | .failedPost caller => inferInstanceAs (Decidable (∀ g ∈ of caller s.holding,
      ∀ g' ∈ s.woken ++ s.holding ++ s.posted, g.ticket ≤ g'.ticket))
  | .acquire | .cancel _ | .wake _ | .completion => .isTrue trivial

open Lib.GuardedRuns Lib.Ring

def tickets (grants : List Grant) : List ℕ := grants.map Grant.ticket

/-- The outstanding tickets are the last ones handed out, the `sent` posted ones first. -/
structure Ordered (s : Socket) (base sent pending : ℕ) : Prop where
  tail : s.bufs.tail = base+s.bufs.bufCnt
  front : s.bufs.front = base+sent+pending
  le : s.bufs.front ≤ s.bufs.tail
  posted : tickets s.posted = List.range' base sent
  waiting : (tickets (s.woken ++ s.holding)).Perm (List.range' (base+sent) pending)

theorem serve_grants (front tail : ℕ) (ws : List Waiter) (h : front ≤ tail) :
    ∃ k, (serve front tail ws).1 = front+k ∧ front+k ≤ tail ∧
      tickets (serve front tail ws).2.2 = List.range' front k := by
  induction ws generalizing front with
  | nil => exact ⟨0,rfl,h,rfl⟩
  | cons w ws ih =>
    rw [serve]
    split_ifs with hfull hgone
    · exact ⟨0,rfl,h,rfl⟩
    · exact ih front h
    · obtain ⟨k,hfront,hle,hgrants⟩ := ih (front+1) (by omega)
      refine ⟨k+1,by simp only [hfront]; omega,by omega,?_⟩
      rw [List.range'_succ, ← hgrants]
      rfl

theorem tickets_append (as bs : List Grant) : tickets (as ++ bs) = tickets as ++ tickets bs :=
  List.map_append

variable {s : Socket} {base sent pending : ℕ}

theorem Ordered.push (htail : s.bufs.tail = base+s.bufs.bufCnt)
    (hfront : s.bufs.front = base+1+sent+pending)
    (hle : s.bufs.front ≤ s.bufs.tail+1) (hposted : tickets s.posted = List.range' (base+1) sent)
    (hwaiting : (tickets (s.woken ++ s.holding)).Perm (List.range' (base+1+sent) pending)) :
    ∃ k, Ordered s.push (base+1) sent (pending+k) := by
  obtain ⟨k,hk,hkle,hgrants⟩ := serve_grants s.bufs.front (s.bufs.tail+1) s.bufs.waiters hle
  refine ⟨k,?_,?_,?_,hposted,?_⟩
  · show s.bufs.tail+1 = base+1+s.bufs.bufCnt
    omega
  · show (serve s.bufs.front (s.bufs.tail+1) s.bufs.waiters).1 = _
    omega
  · show (serve s.bufs.front (s.bufs.tail+1) s.bufs.waiters).1 ≤ s.bufs.tail+1
    omega
  · show (tickets (s.woken ++ (serve s.bufs.front (s.bufs.tail+1) s.bufs.waiters).2.2 ++
      s.holding)).Perm _
    rw [← List.range'_append_1, tickets_append, tickets_append, hgrants]
    rw [tickets_append] at hwaiting
    rw [← hfront]
    refine List.Perm.trans ?_ (hwaiting.append_right _)
    rw [List.append_assoc, List.append_assoc]
    exact List.perm_append_comm.append_left _

theorem of_mem {caller : ℕ} {grants : List Grant} {g : Grant} (h : of caller grants = some g) :
    g ∈ grants := List.mem_of_find?_eq_some h

theorem first_of_le {ts : List ℕ} {t start len : ℕ} (hperm : ts.Perm (List.range' start len))
    (hmem : t ∈ ts) (hle : ∀ t' ∈ ts, t ≤ t') : t = start ∧ ∃ k, len = k+1 := by
  have ht := List.mem_range'_1.mp (hperm.mem_iff.mp hmem)
  have hstart := hle start (hperm.mem_iff.mpr (List.mem_range'_1.mpr (by omega)))
  exact ⟨by omega,len-1,by omega⟩

section

variable {s : Socket} {base sent pending : ℕ} (h : Ordered s base sent pending)

include h

theorem Ordered.acquire :
    ∃ pending', Ordered s.acquire base sent pending' := by
  rw [Socket.acquire, SendBuffers.tryPop]
  split_ifs with hfull
  · exact ⟨pending,h.tail,h.front,h.le,h.posted,h.waiting⟩
  · refine ⟨pending+1,h.tail,?_,?_,h.posted,?_⟩
    · show s.bufs.front+1 = _
      have := h.front
      omega
    · show s.bufs.front+1 ≤ s.bufs.tail
      omega
    · show (tickets (s.woken ++ (s.holding ++ [⟨s.calls,s.bufs.front⟩]))).Perm _
      rw [← List.append_assoc, tickets_append, ← List.range'_append_1, ← h.front]
      exact h.waiting.append_right _

variable {g : Grant}

theorem Ordered.wake (hg : g ∈ s.woken) : Ordered { s with
      woken := s.woken.erase g, holding := s.holding ++ [g] } base sent pending := by
  refine ⟨h.tail,h.front,h.le,h.posted,List.Perm.trans ?_ h.waiting⟩
  apply List.Perm.map
  show (s.woken.erase g ++ (s.holding ++ [g])).Perm (s.woken ++ s.holding)
  have hmoved : (s.holding ++ [g]).Perm (g::s.holding) := List.perm_append_singleton g _
  have hfirst : (s.woken.erase g ++ g::s.holding).Perm (g::(s.woken.erase g ++ s.holding)) :=
    List.perm_middle
  exact (hmoved.append_left _).trans
    (hfirst.trans ((List.perm_cons_erase hg).symm.append_right s.holding))

theorem Ordered.first (hg : g ∈ s.holding)
    (hfirst : ∀ g' ∈ s.woken ++ s.holding, g.ticket ≤ g'.ticket) :
    g.ticket = base+sent ∧ ∃ k, pending = k+1 ∧
      (tickets (s.woken ++ s.holding.erase g)).Perm (List.range' (base+sent+1) k) := by
  have hmem : g ∈ s.woken ++ s.holding := List.mem_append_right _ hg
  obtain ⟨hticket,k,rfl⟩ := first_of_le h.waiting (List.mem_map_of_mem hmem) (by
    intro t ht
    obtain ⟨g',hg',rfl⟩ := List.mem_map.mp ht
    exact hfirst g' hg')
  have hrest : (g::(s.woken ++ s.holding.erase g)).Perm (s.woken ++ s.holding) :=
    List.perm_middle.symm.trans ((List.perm_cons_erase hg).symm.append_left _)
  have hwaiting := (hrest.map Grant.ticket).trans h.waiting
  rw [List.map_cons, hticket, List.range'_succ] at hwaiting
  exact ⟨hticket,k,rfl,hwaiting.cons_inv⟩

theorem Ordered.post (hg : g ∈ s.holding)
    (hfirst : ∀ g' ∈ s.woken ++ s.holding, g.ticket ≤ g'.ticket) :
    ∃ k, Ordered { s with holding := s.holding.erase g, posted := s.posted ++ [g] }
      base (sent+1) k := by
  obtain ⟨hticket,k,rfl,hwaiting⟩ := h.first hg hfirst
  refine ⟨k,h.tail,by rw [h.front]; omega,h.le,?_,hwaiting⟩
  show tickets (s.posted ++ [g]) = List.range' base (sent+1)
  rw [tickets_append, h.posted, ← List.range'_append_1]
  simp [tickets, hticket]

theorem Ordered.failedPost (hg : g ∈ s.holding)
    (hfirst : ∀ g' ∈ s.woken ++ s.holding ++ s.posted, g.ticket ≤ g'.ticket) :
    ∃ k, Ordered (Socket.push { s with holding := s.holding.erase g }) (base+1) 0 k := by
  obtain ⟨hticket,k,rfl,hwaiting⟩ := h.first hg fun g' hg' =>
    hfirst g' (List.mem_append_left _ hg')
  have hnone : sent = 0 := by
    by_contra hne
    have hbase : base ∈ tickets s.posted := by
      rw [h.posted]
      exact List.mem_range'_1.mpr (by omega)
    obtain ⟨g',hg',hg'base⟩ := List.mem_map.mp hbase
    have := hfirst g' (List.mem_append_right _ hg')
    omega
  subst hnone
  have hfront := h.front
  have hle := h.le
  obtain ⟨m,hm⟩ := @Ordered.push { s with holding := s.holding.erase g } base 0 k h.tail
    (by show s.bufs.front = _; omega) (by show s.bufs.front ≤ s.bufs.tail+1; omega) h.posted
    hwaiting
  exact ⟨_,hm⟩

theorem Ordered.completion {rest : List Grant} (hposted : s.posted = g::rest) :
    ∃ k m, Ordered (Socket.push { s with posted := rest }) (base+1) k m := by
  have htickets := h.posted
  rw [hposted] at htickets
  cases sent with
  | zero => cases htickets
  | succ k =>
    rw [List.range'_succ] at htickets
    have hfront := h.front
    have hle := h.le
    have hwaiting := h.waiting
    rw [show base+(k+1) = base+1+k by omega] at hwaiting
    obtain ⟨m,hm⟩ := @Ordered.push { s with posted := rest } base k pending h.tail
      (by show s.bufs.front = _; omega) (by show s.bufs.front ≤ s.bufs.tail+1; omega)
      (List.cons.inj htickets).2 hwaiting
    exact ⟨k,_,hm⟩

end

/-- The invariant of a socket whose callers keep to the order. -/
def Sound (s : Socket) : Prop := ∃ base sent pending, Ordered s base sent pending

theorem sound_new (bufCnt : ℕ) : Sound (.new bufCnt) :=
  ⟨0,0,0,(Nat.zero_add _).symm,rfl,Nat.zero_le _,rfl,.refl _⟩

theorem Sound.next {e : Event} (hs : Sound s) (he : InOrder s e) :
    Sound (s.next e) := by
  obtain ⟨base,sent,pending,h⟩ := hs
  cases e with
  | acquire =>
    obtain ⟨k,hk⟩ := h.acquire
    exact ⟨base,sent,k,hk⟩
  | cancel caller => exact ⟨base,sent,pending,h.tail,h.front,h.le,h.posted,h.waiting⟩
  | wake caller =>
    rw [Socket.next]
    cases hg : of caller s.woken with
    | none => exact ⟨base,sent,pending,h⟩
    | some g => exact ⟨base,sent,pending,h.wake (of_mem hg)⟩
  | post caller =>
    rw [Socket.next]
    cases hg : of caller s.holding with
    | none => exact ⟨base,sent,pending,h⟩
    | some g =>
      obtain ⟨k,hk⟩ := h.post (of_mem hg) (he g hg)
      exact ⟨base,sent+1,k,hk⟩
  | failedPost caller =>
    rw [Socket.next]
    cases hg : of caller s.holding with
    | none => exact ⟨base,sent,pending,h⟩
    | some g =>
      obtain ⟨k,hk⟩ := h.failedPost (of_mem hg) (he g hg)
      exact ⟨base+1,0,k,hk⟩
  | completion =>
    rw [Socket.next]
    cases hp : s.posted with
    | nil => exact ⟨base,sent,pending,h⟩
    | cons g rest =>
      obtain ⟨k,m,hk⟩ := h.completion hp
      exact ⟨base+1,k,m,hk⟩

theorem Ordered.window (h : Ordered s base sent pending)
    {g : Grant} (hg : g ∈ s.holding ++ s.posted) : base ≤ g.ticket ∧ g.ticket < s.bufs.front := by
  rw [h.front]
  rcases List.mem_append.mp hg with hg | hg
  · have hmem := List.mem_map_of_mem (f := Grant.ticket) (List.mem_append_right s.woken hg)
    have := List.mem_range'_1.mp (h.waiting.mem_iff.mp hmem)
    omega
  · have hmem : g.ticket ∈ tickets s.posted := List.mem_map_of_mem hg
    rw [h.posted] at hmem
    have := List.mem_range'_1.mp hmem
    omega

theorem Ordered.woken_apart (h : Ordered s base sent pending)
    {g g' : Grant} (hg : g ∈ s.woken) (hg' : g' ∈ s.holding ++ s.posted) :
    g'.ticket ≠ g.ticket := by
  have hwaiting : g.ticket ∈ List.range' (base+sent) pending :=
    h.waiting.mem_iff.mp (List.mem_map_of_mem (List.mem_append_left _ hg))
  rcases List.mem_append.mp hg' with hg' | hg'
  · have hnodup := h.waiting.nodup_iff.mpr List.nodup_range'
    rw [tickets_append] at hnodup
    intro heq
    exact (List.nodup_append.mp hnodup).2.2 _ (List.mem_map_of_mem hg) _
      (List.mem_map_of_mem hg') heq.symm
  · have hmem : g'.ticket ∈ tickets s.posted := List.mem_map_of_mem hg'
    rw [h.posted] at hmem
    have := List.mem_range'_1.mp hmem
    have := List.mem_range'_1.mp hwaiting
    omega

theorem Ordered.apart {base sent pending ticket : ℕ}
    (h : Ordered s base sent pending) (hlow : base ≤ ticket) (hhigh : ticket < s.bufs.tail)
    (hne : ∀ g ∈ s.holding ++ s.posted, g.ticket ≠ ticket) :
    ticket%s.bufs.bufCnt ∉ (s.holding ++ s.posted).map s.slot := by
  have hslots : (s.holding ++ s.posted).map s.slot =
      (tickets (s.holding ++ s.posted)).map (fun t => t%s.bufs.bufCnt) := by
    rw [tickets, List.map_map]
    rfl
  rw [hslots]
  refine @slot_notMem _ base s.bufs.bufCnt _ _ ?_ hlow (h.tail ▸ hhigh) le_rfl
  intro t ht
  obtain ⟨g,hg,rfl⟩ := List.mem_map.mp ht
  have hwindow := h.window hg
  have hle := h.le
  have htail := h.tail
  exact ⟨hne g hg,hwindow.1,by omega⟩

theorem Sound.safe (hs : Sound s) (e : Event) : Safe s e := by
  obtain ⟨base,sent,pending,h⟩ := hs
  intro idx hidx
  have hfront := h.front
  cases e with
  | acquire =>
    rw [Socket.returned, SendBuffers.tryPop] at hidx
    split_ifs at hidx with hfull
    · cases hidx
    obtain rfl : s.bufs.front%s.bufs.bufCnt = idx := Option.some.inj hidx
    exact h.apart (by omega) (not_le.mp hfull) fun g hg => (h.window hg).2.ne
  | wake caller =>
    obtain ⟨g,hg,rfl⟩ := Option.map_eq_some_iff.mp hidx
    have hmem := List.mem_range'_1.mp (h.waiting.mem_iff.mp
      (List.mem_map_of_mem (List.mem_append_left _ (of_mem hg))))
    have hle := h.le
    exact h.apart (by omega) (by omega) fun g' hg' => h.woken_apart (of_mem hg) hg'
  | _ => cases hidx

/-- When sends are posted in the order of their buffers and no post fails behind an
outstanding send, acquire never returns a buffer that another send still uses. -/
theorem acquired_buffer_free (bufCnt : ℕ) {events : List Event}
    (horder : Always Socket.next InOrder (.new bufCnt) events) :
    Always Socket.next Safe (.new bufCnt) events :=
  horder.imp Sound (fun _ _ hs he => hs.next he) (fun _ e hs _ => hs.safe e) (sound_new bufCnt)

def sendBufCnt : ℕ := 4

def sends (first count : ℕ) : List Event :=
  (List.range' first count).flatMap (fun caller => [.acquire,.post caller])

/-- Four sends fill the ring, a fifth waits for the first completion. -/
def fifthWaits : List Event := sends 0 4 ++
  ([.acquire,.completion,.wake 4,.post 4] : List Event)

theorem fifthWaits_safe : Always Socket.next InOrder (.new sendBufCnt) fifthWaits ∧
    Always Socket.next Safe (.new sendBufCnt) fifthWaits := by
  have horder : Always Socket.next InOrder (.new sendBufCnt) fifthWaits := by decide +kernel
  exact ⟨horder,acquired_buffer_free sendBufCnt horder⟩

def overtaken : List Event :=
  sends 0 4 ++ ([.acquire,.completion,.completion] : List Event) ++ sends 5 1 ++
    ([.completion,.completion] : List Event) ++ sends 6 2 ++
    ([.completion,.wake 4,.post 4,.acquire] : List Event)

/-- The second post fails while the first send is outstanding. -/
def failedSecond : List Event :=
  sends 0 1 ++ ([.acquire,.failedPost 1] : List Event) ++ sends 2 2 ++ [Event.acquire]

theorem buffer_handed_out_twice : ¬Always Socket.next Safe (.new sendBufCnt) overtaken ∧
    ¬Always Socket.next Safe (.new sendBufCnt) failedSecond := by
  decide +kernel

end Openlake.Rdma
