import Openlake.ClusterSets
import Openlake.Lib.GuardedRuns
import Openlake.Lib.Ring
import Openlake.RdmaWire

/-!
# Receive buffers

A socket posts all its receive buffers to a shared receive queue. An arrival, with
a payload or with immediate data only, takes the first posted buffer. When its
completion is handled the buffer is posted again at once, and the message is
queued as an index and a length to be copied out later.

The arrivals go round the buffers, so that of a message that waits is taken again
once as many arrivals as there are buffers followed it. They are other messages
that wait, which the credits bound, and arrivals without payload, which nothing
bounds.
-/

set_option autoImplicit false

namespace Openlake.RecvBuffers
open Openlake.Types ServerConfig Rdma

structure RdmaConfig where
  numClusterNodes : UInt16
  minRecvBufs : ℕ
  srqDepth : UInt32
  peerCredit : UInt32
  deriving DecidableEq, Repr

def RdmaConfig.recvBufCnt (cfg : RdmaConfig) : ℕ :=
  min (max (cfg.peerCredit.toNat*cfg.numClusterNodes.toNat) cfg.minRecvBufs) cfg.srqDepth.toNat

def buildRdmaConfig (t : RdmaToml) (numClusterNodes : UInt16) : RdmaConfig :=
  ⟨numClusterNodes,0,t.srqDepth,t.peerCredit⟩

/-- A node in kv mode asks for as many buffers as the queue holds. -/
def rdmaConfig (cfg : Config) (t : RdmaToml) : RdmaConfig :=
  let c := buildRdmaConfig t (UInt16.ofNat cfg.nodes.length)
  match cfg.mode with
  | .kv => { c with minRecvBufs := 2^64-1 }
  | .storage => c

inductive Arrival where
  | data (src : PeerKey) (bytes : Bytes)
  | imm (i : ImmData)
  deriving DecidableEq, Repr

def Arrival.bytes : Arrival → Bytes
  | .data _ bytes => bytes
  | .imm _ => []

def Arrival.immData : Arrival → Option ImmData
  | .data .. => none
  | .imm i => some i

structure RecvWc where
  bufIdx : ℕ
  byteLen : ℕ
  imm : Option ImmData
  deriving DecidableEq, Repr

structure Receiver where
  srq : List ℕ
  cq : List RecvWc
  slots : List Bytes
  queue : List (ℕ × ℕ)
  arrivals : List Arrival
  received : List Bytes
  deriving DecidableEq, Repr

def Receiver.new (recvBufCnt : ℕ) : Receiver where
  srq := List.range recvBufCnt
  cq := []
  slots := List.replicate recvBufCnt (List.replicate bufSize 0)
  queue := []
  arrivals := []
  received := []

inductive Event where
  | arrive (a : Arrival)
  | poll
  | drain
  deriving DecidableEq, Repr

section Steps

variable (s : Receiver)

/-- Without a posted buffer the send fails at its sender and nothing arrives. -/
def Receiver.arrive (a : Arrival) : Receiver :=
  match s.srq with
  | [] => s
  | idx::srq =>
    { s with
      srq := srq
      slots := s.slots.modify idx (fun old => a.bytes ++ old.drop a.bytes.length)
      cq := s.cq ++ [⟨idx,a.bytes.length,a.immData⟩]
      arrivals := s.arrivals ++ [a] }

/-- The branch of a receive completion. What an acknowledgement does to the credits of its
sender is not part of this state. -/
def Receiver.handleWc (wc : RecvWc) : Receiver :=
  { s with
    queue := match wc.imm with
      | some _ => s.queue
      | none => s.queue ++ [(wc.bufIdx,wc.byteLen)]
    srq := s.srq ++ [wc.bufIdx] }

def Receiver.poll : Receiver :=
  match s.cq with
  | [] => s
  | wc::cq => Receiver.handleWc { s with cq := cq } wc

def Receiver.attemptSingularRcv : Option (Bytes × Receiver) :=
  match s.queue with
  | [] => none
  | (idx,len)::queue => some ((s.slots.getD idx []).take len,{ s with queue := queue })

def Receiver.drain : Receiver :=
  match s.attemptSingularRcv with
  | none => s
  | some (bytes,s') => { s' with received := s.received ++ [bytes] }

def Receiver.next : Event → Receiver
  | .arrive a => s.arrive a
  | .poll => s.poll
  | .drain => s.drain

end Steps

structure Message where
  ticket : ℕ
  src : PeerKey
  bytes : Bytes
  deriving DecidableEq, Repr

def message : Arrival × ℕ → Option Message
  | (.data src bytes,ticket) => some ⟨ticket,src,bytes⟩
  | (.imm _,_) => none

def messages (arrivals : List Arrival) : List Message := arrivals.zipIdx.filterMap message

section Conditions

variable (s : Receiver)

def Receiver.waiting : List Message := (messages s.arrivals).drop s.received.length

/-- The arrivals without payload since the oldest message that waits. -/
def Receiver.immSince : ℕ :=
  match s.waiting with
  | [] => 0
  | m::_ => (s.arrivals.drop m.ticket).countP (fun a => a.immData.isSome)

/-- A sender's message arrives only while fewer than its credit wait to be copied out. -/
def WithinCredit (senders : Finset PeerKey) (peerCredit : ℕ) : Event → Prop
  | .arrive (.data src _) =>
    src ∈ senders ∧ s.waiting.countP (fun m => m.src = src) < peerCredit
  | _ => True

/-- There are buffers for the credits of all senders and for the arrivals without payload. -/
def Room (senders : Finset PeerKey) (cfg : RdmaConfig) : Event → Prop
  | .arrive (.data ..) => senders.card*cfg.peerCredit.toNat+s.immSince ≤ cfg.recvBufCnt
  | _ => True

end Conditions

instance (s : Receiver) (senders : Finset PeerKey) (peerCredit : ℕ) :
    (e : Event) → Decidable (WithinCredit s senders peerCredit e)
  | .arrive (.data src _) => inferInstanceAs (Decidable (src ∈ senders ∧
      s.waiting.countP (fun m => m.src = src) < peerCredit))
  | .arrive (.imm _) | .poll | .drain => .isTrue trivial

instance (s : Receiver) (senders : Finset PeerKey) (cfg : RdmaConfig) :
    (e : Event) → Decidable (Room s senders cfg e)
  | .arrive (.data ..) =>
    inferInstanceAs (Decidable (senders.card*cfg.peerCredit.toNat+s.immSince ≤ cfg.recvBufCnt))
  | .arrive (.imm _) | .poll | .drain => .isTrue trivial

open Lib.Ring

section Messages

variable (arrivals : List Arrival)

theorem messages_concat (a : Arrival) :
    messages (arrivals ++ [a]) = messages arrivals ++ (message (a,arrivals.length)).toList := by
  rw [messages, messages, List.zipIdx_append, List.filterMap_append]
  cases a <;> simp [message]

theorem messages_take_le (k : ℕ) :
    messages (arrivals.take k) <+: messages arrivals := by
  refine ⟨((arrivals.drop k).zipIdx (0+(arrivals.take k).length)).filterMap message,?_⟩
  rw [messages, messages, ← List.filterMap_append, ← List.zipIdx_append, List.take_append_drop]

theorem messages_sorted :
    (messages arrivals).Pairwise (fun m m' => m.ticket < m'.ticket) := by
  rw [messages, List.pairwise_filterMap]
  have h : arrivals.zipIdx.Pairwise (fun a b => a.2 < b.2) := by
    rw [← List.pairwise_map (f := Prod.snd) (R := fun i j => i < j), List.zipIdx_map_snd]
    exact List.pairwise_lt_range' 1
  refine h.imp fun {a b} hab m hm m' hm' => ?_
  obtain ⟨a,i⟩ := a
  obtain ⟨b,j⟩ := b
  cases a <;> cases b <;> simp_all [message]
  subst hm hm'
  exact hab

theorem ticket_lt {arrivals : List Arrival} {m : Message} (h : m ∈ messages arrivals) :
    m.ticket < arrivals.length := by
  obtain ⟨⟨a,i⟩,ha,hm⟩ := List.mem_filterMap.mp h
  have hi := List.snd_lt_of_mem_zipIdx ha
  cases a with
  | data src bytes =>
    obtain rfl : _ = m := Option.some.inj hm
    simpa using hi
  | imm i => cases hm

theorem length_eq_messages (k : ℕ) : arrivals.length =
    arrivals.countP (fun a => a.immData.isSome)+((arrivals.zipIdx k).filterMap message).length := by
  induction arrivals generalizing k with
  | nil => rfl
  | cons a arrivals ih =>
    rw [List.length_cons, ih (k+1), List.zipIdx_cons]
    cases a with
    | data src bytes =>
      rw [List.filterMap_cons_some (by rfl), List.length_cons,
        List.countP_cons_of_neg (by simp [Arrival.immData])]
      omega
    | imm i =>
      rw [List.filterMap_cons_none (by rfl), List.countP_cons_of_pos (by rfl)]
      omega

/-- The arrivals since a message: those without payload, the message, and the messages
behind it. -/
theorem length_since {arrivals : List Arrival} {k d : ℕ} {m : Message} {rest : List Message}
    (h : ((arrivals.zipIdx k).filterMap message).drop d = m::rest) :
    k ≤ m.ticket ∧ k+arrivals.length =
      m.ticket+(arrivals.drop (m.ticket-k)).countP (fun a => a.immData.isSome)+(m::rest).length := by
  induction arrivals generalizing k d with
  | nil => simp at h
  | cons a arrivals ih =>
    rw [List.zipIdx_cons] at h
    cases a with
    | data src bytes =>
      rw [List.filterMap_cons_some (by rfl)] at h
      cases d with
      | zero =>
        rw [List.drop_zero, List.cons.injEq] at h
        obtain ⟨rfl,rfl⟩ := h
        have hlen := length_eq_messages arrivals (k+1)
        simp only [List.length_cons, Nat.sub_self, List.drop_zero]
        rw [List.countP_cons_of_neg (by simp [Arrival.immData])]
        omega
      | succ d =>
        obtain ⟨hle,hlen⟩ := ih h
        have hdrop : m.ticket-k = m.ticket-(k+1)+1 := by omega
        rw [hdrop, List.drop_succ_cons, List.length_cons]
        exact ⟨by omega,by omega⟩
    | imm i =>
      rw [List.filterMap_cons_none (by rfl)] at h
      obtain ⟨hle,hlen⟩ := ih h
      have hdrop : m.ticket-k = m.ticket-(k+1)+1 := by omega
      rw [hdrop, List.drop_succ_cons, List.length_cons]
      exact ⟨by omega,by omega⟩

theorem drop_eq_cons {α : Type} {l : List α} {i : ℕ} {a : α} {rest : List α}
    (h : l.drop i = a::rest) : i < l.length ∧ l[i]? = some a ∧ l.drop (i+1) = rest := by
  have hlt : i < l.length := by
    by_contra hle
    rw [List.drop_eq_nil_of_le (by omega)] at h
    cases h
  rw [List.drop_eq_getElem_cons hlt, List.cons.injEq] at h
  exact ⟨hlt,by rw [List.getElem?_eq_getElem hlt, h.1],h.2⟩

end Messages

def completion (cnt : ℕ) (a : Arrival × ℕ) : RecvWc := ⟨a.2%cnt,a.1.bytes.length,a.1.immData⟩

def entry (cnt : ℕ) (m : Message) : ℕ × ℕ := (m.ticket%cnt,m.bytes.length)

/-- The completions of the first `polled` arrivals were handled, and every message that waits
is still in its buffer. -/
structure Stored (s : Receiver) (cnt polled : ℕ) : Prop where
  handled : polled ≤ s.arrivals.length
  posted : s.arrivals.length ≤ polled+cnt
  srq : s.srq = (List.range' s.arrivals.length (polled+cnt-s.arrivals.length)).map (fun t => t%cnt)
  cq : s.cq = (s.arrivals.zipIdx.drop polled).map (completion cnt)
  queue : s.queue =
    ((messages (s.arrivals.take polled)).drop s.received.length).map (entry cnt)
  drained : s.received.length ≤ (messages (s.arrivals.take polled)).length
  slots : s.slots.length = cnt
  content : ∀ m ∈ s.waiting, ∃ slot, s.slots[m.ticket%cnt]? = some slot ∧
    slot.take m.bytes.length = m.bytes
  received : s.received = ((messages s.arrivals).take s.received.length).map Message.bytes

theorem stored_new (cnt : ℕ) : Stored (.new cnt) cnt 0 where
  handled := Nat.zero_le _
  posted := Nat.zero_le _
  srq := by
    show List.range cnt = (List.range' 0 (0+cnt-0)).map (fun t => t%cnt)
    rw [Nat.zero_add, Nat.sub_zero, ← List.range_eq_range']
    refine (List.map_id _).symm.trans (List.map_congr_left fun t ht => ?_)
    exact (Nat.mod_eq_of_lt (List.mem_range.mp ht)).symm
  cq := rfl
  queue := rfl
  drained := Nat.zero_le _
  slots := List.length_replicate
  content := by simp [Receiver.waiting, Receiver.new, messages]
  received := rfl

section Steps

variable {s : Receiver} {cnt polled : ℕ}

section

variable (h : Stored s cnt polled)

include h

theorem Stored.drain : Stored s.drain cnt polled := by
  rw [Receiver.drain, Receiver.attemptSingularRcv]
  cases hq : s.queue with
  | nil => exact h
  | cons e queue =>
    have hqueue := h.queue
    rw [hq] at hqueue
    obtain ⟨m,rest,hdrop,rfl,rfl⟩ := List.map_eq_cons_iff.mp hqueue.symm
    obtain ⟨hlt,hm,hrest⟩ := drop_eq_cons hdrop
    obtain ⟨later,hlater⟩ := messages_take_le s.arrivals polled
    have hwaiting : s.waiting = m::(rest ++ later) := by
      rw [Receiver.waiting, ← hlater, List.drop_append_of_le_length hlt.le, hdrop]
      rfl
    obtain ⟨-,hm',hrest'⟩ := drop_eq_cons hwaiting
    obtain ⟨slot,hslot,hbytes⟩ := h.content m (by simp [hwaiting])
    have hread : (s.slots.getD (m.ticket%cnt) []).take m.bytes.length = m.bytes := by
      rw [List.getD_eq_getElem?_getD, hslot]
      exact hbytes
    refine ⟨h.handled,h.posted,h.srq,h.cq,?_,?_,h.slots,?_,?_⟩
    · simp only [List.length_append, List.length_singleton, hrest]
    · simp only [List.length_append, List.length_singleton]
      exact hlt
    · intro m' hm'
      simp only [Receiver.waiting, List.length_append, List.length_singleton, hrest'] at hm'
      exact h.content m' (by simp [hwaiting, hm'])
    · simp only [List.length_append, List.length_singleton, entry, hread, List.take_add_one, hm',
        Option.toList_some, List.map_append, ← h.received]
      rfl

theorem Stored.poll : ∃ polled', Stored s.poll cnt polled' := by
  rw [Receiver.poll]
  cases hcq : s.cq with
  | nil => exact ⟨polled,h⟩
  | cons wc cq =>
    have hwcs := h.cq
    rw [hcq] at hwcs
    obtain ⟨⟨a,t⟩,rest,hdrop,rfl,rfl⟩ := List.map_eq_cons_iff.mp hwcs.symm
    obtain ⟨hlt,ha,hrest⟩ := drop_eq_cons hdrop
    rw [List.length_zipIdx] at hlt
    obtain ⟨ha,rfl⟩ : s.arrivals[polled]? = some a ∧ t = polled := by
      rw [List.getElem?_zipIdx] at ha
      obtain ⟨a',ha',he⟩ := Option.map_eq_some_iff.mp ha
      obtain ⟨rfl,ht⟩ := Prod.mk.inj he
      exact ⟨ha',by omega⟩
    have hposted := h.posted
    have hmessages : messages (s.arrivals.take (t+1)) =
        messages (s.arrivals.take t) ++ (message (a,t)).toList := by
      rw [List.take_add_one, ha, Option.toList_some, messages_concat, List.length_take,
        Nat.min_eq_left hlt.le]
    refine ⟨t+1,hlt,?_,?_,?_,?_,?_,h.slots,h.content,h.received⟩
    · show s.arrivals.length ≤ t+1+cnt
      omega
    · show s.srq ++ [t%cnt] = (List.range' s.arrivals.length (t+1+cnt-s.arrivals.length)).map _
      rw [show t+1+cnt-s.arrivals.length = t+cnt-s.arrivals.length+1 by omega, List.range'_concat,
        List.map_append, ← h.srq, List.map_singleton,
        show s.arrivals.length+1*(t+cnt-s.arrivals.length) = t+cnt by omega, Nat.add_mod_right]
    · show rest.map (completion cnt) = _
      rw [← hrest]
      rfl
    · show _ = ((messages (s.arrivals.take (t+1))).drop s.received.length).map (entry cnt)
      rw [hmessages, List.drop_append_of_le_length h.drained, List.map_append, ← h.queue]
      cases a with
      | data src bytes => rfl
      | imm i => exact (List.append_nil _).symm
    · show s.received.length ≤ (messages (s.arrivals.take (t+1))).length
      rw [hmessages, List.length_append]
      exact h.drained.trans (Nat.le_add_right _ _)

theorem Stored.le_messages :
    s.received.length ≤ (messages s.arrivals).length :=
  h.drained.trans (messages_take_le s.arrivals polled).length_le

/-- The buffer that an arrival takes holds its payload, and the other messages stay where they
are if they are not in it. -/
theorem content_arrive (hcnt : 0 < cnt) (a : Arrival)
    (hfree : a.bytes ≠ [] → ∀ m ∈ s.waiting, s.arrivals.length < m.ticket+cnt) :
    ∀ m ∈ s.waiting ++ (message (a,s.arrivals.length)).toList,
      ∃ slot, (s.slots.modify (s.arrivals.length%cnt)
          (fun old => a.bytes ++ old.drop a.bytes.length))[m.ticket%cnt]? = some slot ∧
        slot.take m.bytes.length = m.bytes := by
  intro m hm
  rcases List.mem_append.mp hm with hm | hm
  · obtain ⟨slot,hslot,hbytes⟩ := h.content m hm
    rw [List.getElem?_modify, hslot]
    split_ifs with heq
    · -- Only an arrival without payload may take the buffer of a message that waits.
      have hempty : a.bytes = [] := by
        by_contra hne
        have hlt := ticket_lt (List.mem_of_mem_drop hm)
        exact slot_ne hlt.le le_rfl (by omega) (hfree hne m hm) (by omega) heq
      exact ⟨slot,by simp [hempty],hbytes⟩
    · exact ⟨slot,rfl,hbytes⟩
  · cases a with
    | imm i => simp [message] at hm
    | data src bytes =>
      obtain rfl : m = ⟨s.arrivals.length,src,bytes⟩ := by simpa [message] using hm
      have hlt : s.arrivals.length%cnt < s.slots.length := by
        rw [h.slots]
        exact Nat.mod_lt _ hcnt
      refine ⟨bytes ++ s.slots[s.arrivals.length%cnt].drop bytes.length,?_,List.take_left⟩
      rw [List.getElem?_modify, List.getElem?_eq_getElem hlt]
      simp [Arrival.bytes]

theorem Stored.arrive (a : Arrival)
    (hfree : a.bytes ≠ [] → ∀ m ∈ s.waiting, s.arrivals.length < m.ticket+cnt) :
    Stored (s.arrive a) cnt polled := by
  rw [Receiver.arrive]
  cases hsrq : s.srq with
  | nil => exact h
  | cons idx srq =>
    have hposted := h.posted
    have hhandled := h.handled
    have hfirst := h.srq
    rw [hsrq] at hfirst
    obtain ⟨t,rest,hrange,rfl,rfl⟩ := List.map_eq_cons_iff.mp hfirst.symm
    obtain ⟨k,hk⟩ : ∃ k, polled+cnt-s.arrivals.length = k+1 :=
      Nat.exists_eq_add_one.mpr (by
        have hlen := congrArg List.length hrange
        rw [List.length_range', List.length_cons] at hlen
        omega)
    rw [hk, List.range'_succ, List.cons.injEq] at hrange
    obtain ⟨rfl,rfl⟩ := hrange
    have htake : (s.arrivals ++ [a]).take polled = s.arrivals.take polled :=
      List.take_append_of_le_length hhandled
    refine ⟨?_,?_,?_,?_,?_,?_,?_,?_,?_⟩
    · simp only [List.length_append, List.length_singleton]
      omega
    · simp only [List.length_append, List.length_singleton]
      omega
    · simp only [List.length_append, List.length_singleton]
      rw [show polled+cnt-(s.arrivals.length+1) = k by omega]
    · simp only [List.zipIdx_append]
      rw [List.drop_append_of_le_length (by rwa [List.length_zipIdx]), List.map_append, ← h.cq]
      simp [completion]
    · simp only [htake]
      exact h.queue
    · simp only [htake]
      exact h.drained
    · simp only [List.length_modify]
      exact h.slots
    · simp only [Receiver.waiting, messages_concat]
      rw [List.drop_append_of_le_length h.le_messages]
      exact content_arrive h (by omega) a hfree
    · simp only [messages_concat]
      rw [List.take_append_of_le_length h.le_messages]
      exact h.received

end

end Steps

open Cluster Lib.GuardedRuns

theorem length_le_of_count {keys : List PeerKey} {senders : Finset PeerKey} {c : ℕ}
    (hmem : ∀ k ∈ keys, k ∈ senders) (hcount : ∀ k, keys.count k ≤ c) :
    keys.length ≤ senders.card*c := by
  rw [← List.sum_toFinset_count_eq_length]
  calc
    _ ≤ keys.toFinset.card*c := Finset.sum_le_card_nsmul _ _ _ fun k _ => hcount k
    _ ≤ _ := Nat.mul_le_mul_right _ (Finset.card_le_card fun k hk =>
      hmem k (List.mem_toFinset.mp hk))

section Credits

variable (senders : Finset PeerKey) (cfg : RdmaConfig)

/-- The messages of each sender that wait are within its credit. -/
structure Credited (waiting : List Message) : Prop where
  known : ∀ m ∈ waiting, m.src ∈ senders
  counts : ∀ src, (waiting.map Message.src).count src ≤ cfg.peerCredit.toNat

structure Inv (s : Receiver) : Prop where
  stored : ∃ polled, Stored s cfg.recvBufCnt polled
  credited : Credited senders cfg s.waiting

variable {senders cfg}

theorem Credited.mono {waiting waiting' : List Message} (h : Credited senders cfg waiting)
    (hsub : waiting'.Sublist waiting) : Credited senders cfg waiting' where
  known m hm := h.known m (hsub.subset hm)
  counts src := ((hsub.map Message.src).count_le src).trans (h.counts src)

variable {waiting : List Message}

theorem Credited.concat (h : Credited senders cfg waiting) {m : Message}
    (hknown : m.src ∈ senders)
    (hcount : waiting.countP (fun m' => m'.src = m.src) < cfg.peerCredit.toNat) :
    Credited senders cfg (waiting ++ [m]) where
  known m' hm' := by
    rcases List.mem_append.mp hm' with hm' | hm'
    · exact h.known m' hm'
    · rwa [List.mem_singleton.mp hm']
  counts src := by
    rw [List.map_append, List.count_append, List.map_singleton, List.count_singleton]
    split_ifs with heq
    · obtain rfl : m.src = src := by simpa using heq
      rw [List.count, List.countP_map]
      have hsame : waiting.countP ((fun k => k == m.src) ∘ Message.src) =
          waiting.countP (fun m' => m'.src = m.src) := List.countP_congr (by simp)
      omega
    · exact h.counts src

theorem Credited.length_le (h : Credited senders cfg waiting) :
    waiting.length ≤ senders.card*cfg.peerCredit.toNat := by
  rw [← List.length_map Message.src]
  refine length_le_of_count (fun k hk => ?_) h.counts
  obtain ⟨m,hm,rfl⟩ := List.mem_map.mp hk
  exact h.known m hm

variable {s : Receiver}

/-- With room for the credits of all senders, fewer arrivals than buffers followed the oldest
message that waits. -/
theorem Inv.free (h : Inv senders cfg s) {src : PeerKey} {bytes : Bytes}
    (hcredit : WithinCredit s senders cfg.peerCredit.toNat (.arrive (.data src bytes)))
    (hroom : Room s senders cfg (.arrive (.data src bytes))) :
    ∀ m ∈ s.waiting, s.arrivals.length < m.ticket+cfg.recvBufCnt := by
  intro m hm
  have hlen := (h.credited.concat (m := ⟨s.arrivals.length,src,bytes⟩) hcredit.1
    hcredit.2).length_le
  rw [List.length_append, List.length_singleton] at hlen
  cases hwaiting : s.waiting with
  | nil => simp [hwaiting] at hm
  | cons oldest rest =>
    have hroom : senders.card*cfg.peerCredit.toNat+s.immSince ≤ cfg.recvBufCnt := hroom
    have hsince := (length_since hwaiting).2
    have himm : s.immSince =
        (s.arrivals.drop oldest.ticket).countP (fun a => a.immData.isSome) := by
      rw [Receiver.immSince, hwaiting]
    rw [Nat.sub_zero, ← himm, ← hwaiting, Nat.zero_add] at hsince
    have holdest : oldest.ticket ≤ m.ticket := by
      have hsorted := (messages_sorted s.arrivals).sublist
        (List.drop_sublist s.received.length _)
      rw [show (messages s.arrivals).drop s.received.length = oldest::rest from hwaiting] at hsorted
      rw [hwaiting] at hm
      rcases List.mem_cons.mp hm with rfl | hm
      · exact le_rfl
      · exact ((List.pairwise_cons.mp hsorted).1 m hm).le
    omega

theorem waiting_poll (s : Receiver) : s.poll.waiting = s.waiting := by
  rw [Receiver.poll]
  cases s.cq <;> rfl

theorem waiting_drain (s : Receiver) : s.drain.waiting.Sublist s.waiting := by
  rw [Receiver.drain, Receiver.attemptSingularRcv]
  cases s.queue with
  | nil => exact .refl _
  | cons e queue =>
    simp only [Receiver.waiting, List.length_append, List.length_singleton, ← List.drop_drop]
    exact List.drop_sublist 1 _

theorem Inv.arrive (h : Inv senders cfg s) {a : Arrival}
    (hcredit : WithinCredit s senders cfg.peerCredit.toNat (.arrive a))
    (hroom : Room s senders cfg (.arrive a)) : Inv senders cfg (s.arrive a) := by
  obtain ⟨polled,hstored⟩ := h.stored
  have hfree : a.bytes ≠ [] → ∀ m ∈ s.waiting, s.arrivals.length < m.ticket+cfg.recvBufCnt := by
    intro hne
    cases a with
    | data src bytes => exact h.free hcredit hroom
    | imm i => exact absurd rfl hne
  refine ⟨⟨polled,hstored.arrive a hfree⟩,?_⟩
  rw [Receiver.arrive]
  cases s.srq with
  | nil => exact h.credited
  | cons idx srq =>
    simp only [Receiver.waiting, messages_concat]
    rw [List.drop_append_of_le_length hstored.le_messages]
    cases a with
    | data src bytes => exact h.credited.concat hcredit.1 hcredit.2
    | imm i => exact h.credited.mono (by simp [message, Receiver.waiting])

theorem Inv.next (h : Inv senders cfg s) {e : Event}
    (hcredit : WithinCredit s senders cfg.peerCredit.toNat e) (hroom : Room s senders cfg e) :
    Inv senders cfg (s.next e) := by
  obtain ⟨polled,hstored⟩ := h.stored
  cases e with
  | poll =>
    refine ⟨hstored.poll,?_⟩
    show Credited senders cfg s.poll.waiting
    rw [waiting_poll]
    exact h.credited
  | drain => exact ⟨⟨polled,hstored.drain⟩,h.credited.mono (waiting_drain s)⟩
  | arrive a => exact h.arrive hcredit hroom

theorem inv_new : Inv senders cfg (.new cfg.recvBufCnt) where
  stored := ⟨0,stored_new _⟩
  credited := ⟨by simp [Receiver.waiting, Receiver.new, messages],
    by simp [Receiver.waiting, Receiver.new, messages]⟩

/-- In every run in which the senders respect their credits and there are buffers for them and
for the arrivals without payload, the messages copied out are those that arrived, in order. -/
theorem received_as_arrived (senders : Finset PeerKey) (cfg : RdmaConfig) {events : List Event}
    (h : Always Receiver.next (fun s e => WithinCredit s senders cfg.peerCredit.toNat e ∧
      Room s senders cfg e) (.new cfg.recvBufCnt) events) :
    let s := after Receiver.next (.new cfg.recvBufCnt) events
    s.received <+: (messages s.arrivals).map Message.bytes := by
  intro s
  obtain ⟨polled,hstored⟩ := (h.invariant (Inv senders cfg)
    (fun s e hs he => hs.next he.1 he.2) inv_new).stored
  rw [hstored.received]
  exact (List.take_prefix _ _).map _

end Credits

/-- Two nodes with a receive queue of the given depth and two credits for each peer. -/
def rdmaNodes (srqDepth : UInt32) : Config :=
  { twoNodes 1 with transport := .rdma, rdma := some ⟨srqDepth,2,none⟩ }

def rdmaEnv : Env := { allThere with rdmaBuild := true }

def peer : PeerKey := ⟨1,0⟩

def sampleConfig (srqDepth : UInt32) : RdmaConfig := rdmaConfig (rdmaNodes srqDepth) ⟨srqDepth,2,none⟩

/-- One message waits while `acks` acknowledgements and another message arrive. -/
def sampleRun (acks : ℕ) : List Event :=
  ([.arrive (.data peer [1]),.poll] : List Event) ++
    (List.replicate acks [Event.arrive (.imm (ImmData.ack peer 4)),.poll]).flatten ++
    ([.arrive (.data peer [2]),.poll,.drain] : List Event)

def sampleEnd (srqDepth : UInt32) (acks : ℕ) : Receiver :=
  after Receiver.next (.new (sampleConfig srqDepth).recvBufCnt) (sampleRun acks)

theorem deep_received :
    Always Receiver.next (fun s e => WithinCredit s {peer} 2 e ∧ Room s {peer} (sampleConfig 1024) e)
      (.new (sampleConfig 1024).recvBufCnt) (sampleRun 2) ∧
    (sampleEnd 1024 2).received <+: (messages (sampleEnd 1024 2).arrivals).map Message.bytes := by
  have hrun : Always Receiver.next (fun s e => WithinCredit s {peer} 2 e ∧
      Room s {peer} (sampleConfig 1024) e) (.new (sampleConfig 1024).recvBufCnt) (sampleRun 2) := by
    decide +kernel
  exact ⟨hrun,received_as_arrived {peer} (sampleConfig 1024) hrun⟩

/-- A receive queue of depth one is accepted and the second message overwrites the first. With
a deep queue the same happens when three acknowledgements arrive in between. -/
theorem queued_message_overwritten :
    (fromToml rdmaEnv (fun _ => .ok (rdmaNodes 1)) "").isOk = true ∧
    (fromToml rdmaEnv (fun _ => .ok (rdmaNodes 1024)) "").isOk = true ∧
    Always Receiver.next (fun s e => WithinCredit s {peer} 2 e)
      (.new (sampleConfig 1).recvBufCnt) (sampleRun 0) ∧
    (sampleEnd 1 0).received = [[2]] ∧
    Always Receiver.next (fun s e => WithinCredit s {peer} 2 e)
      (.new (sampleConfig 1024).recvBufCnt) (sampleRun 3) ∧
    (sampleEnd 1024 3).received = [[2]] ∧
    (messages (sampleEnd 1024 3).arrivals).map Message.bytes = [[1],[2]] := by
  decide +kernel

end Openlake.RecvBuffers
