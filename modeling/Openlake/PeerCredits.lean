import Openlake.RecvBuffers

/-!
# Credits between endpoints

A sender takes one credit of its peer for each buffer it sends and waits when
they are used up. The receiver counts the messages it handled from each sender
and gives the credits back in batches. The network holds what all endpoints keep
and the messages on the way between any two of them, in order.

The balance says where a credit is that was taken and not given back. Taking a
credit, posting, delivering and counting a message each move one credit from one
place to the next, and an acknowledgement moves the credits of a batch.
-/

set_option autoImplicit false

namespace Openlake.PeerCredits
open Openlake.Types Rdma

structure PeerCredit where
  sent : UInt64 := 0
  acked : UInt64 := 0
  notAcked : UInt32 := 0
  wakers : List ℕ := []
  deriving DecidableEq, Repr

def envelopeMagic : UInt32 := 0x52444D33

inductive Envelope where
  | req (magic : UInt32) (fromNodeId fromRuntimeId : UInt16) (requestId : UInt64)
  | rsp (magic : UInt32) (requestId : UInt64)
  deriving DecidableEq, Repr

inductive Packet where
  | data (bytes : Bytes)
  | imm (i : ImmData)
  deriving DecidableEq, Repr

/-- The decoder of envelopes and the routing tables are parameters. -/
structure Setup where
  peerCredit : UInt32
  bufAckBatch : UInt32
  decode : Bytes → Option Envelope
  peerAt : PeerKey → PeerKey → Bool

/-- `perPeer x` is the table of the socket of `x`, `holding x` are its tasks that took a credit
and did not post their buffer yet, `queue x` the messages that arrived with their senders,
`pending x` the requests that wait for a response, `wire x y` the messages from `x` to `y`. -/
structure Network where
  perPeer : PeerKey → PeerKey → Option PeerCredit
  holding : PeerKey → List (ℕ × PeerKey)
  queue : PeerKey → List (PeerKey × Bytes)
  pending : PeerKey → UInt64 → Option PeerKey
  wire : PeerKey → PeerKey → List Packet

def Network.new : Network := ⟨fun _ _ => none,fun _ => [],fun _ => [],fun _ _ => none,fun _ _ => []⟩

def put {α β γ : Type} [DecidableEq α] [DecidableEq β] (f : α → β → γ) (a : α) (b : β) (v : γ) :
    α → β → γ :=
  fun a' b' => if a' = a ∧ b' = b then v else f a' b'

/-- What a drain finds out: the address handle could be made, the acknowledgement was posted. -/
structure Outcome where
  ah : Bool
  ackPosted : Bool
  deriving DecidableEq, Repr

inductive Event where
  | credit (x y : PeerKey) (task : ℕ)
  | post (x : PeerKey) (task : ℕ) (bytes : Bytes)
  | failedPost (x : PeerKey) (task : ℕ)
  | deliver (x y : PeerKey)
  | drain (y : PeerKey) (o : Outcome)
  | request (x : PeerKey) (id : UInt64) (peer : PeerKey)
  | timeout (x : PeerKey) (id : UInt64)
  | resetPeer (x y : PeerKey)
  deriving DecidableEq, Repr

section Steps

variable (p : Setup) (s : Network)

/-- The entry for a peer, made when there is none. -/
def Network.entry (x y : PeerKey) : PeerCredit := (s.perPeer x y).getD {}

def Network.setEntry (x y : PeerKey) (e : PeerCredit) : Network :=
  { s with perPeer := put s.perPeer x y (some e) }

def Network.send (x y : PeerKey) (packet : Packet) : Network :=
  { s with wire := put s.wire x y (s.wire x y ++ [packet]) }

/-- One pass of the loop that waits for a credit. A task that waits does not run. -/
def Network.credit (x y : PeerKey) (task : ℕ) : Network :=
  let e := s.entry x y
  if task ∈ e.wakers then s
  else if e.sent-e.acked < p.peerCredit.toUInt64 then
    { s.setEntry x y { e with sent := e.sent+1 } with
      holding := Function.update s.holding x (s.holding x ++ [(task,y)]) }
  else s.setEntry x y { e with wakers := e.wakers ++ [task] }

def Network.heldBy (x : PeerKey) (task : ℕ) : Option (ℕ × PeerKey) :=
  (s.holding x).find? (fun h => h.1 = task)

def Network.release (x : PeerKey) (h : ℕ × PeerKey) : Network :=
  { s with holding := Function.update s.holding x ((s.holding x).erase h) }

def Network.post (x : PeerKey) (task : ℕ) (bytes : Bytes) : Network :=
  match s.heldBy x task with
  | none => s
  | some h => (s.release x h).send x h.2 (.data bytes)

def Network.failedPost (x : PeerKey) (task : ℕ) : Network :=
  match s.heldBy x task with
  | none => s
  | some h =>
    match s.perPeer x h.2 with
    | none => s.release x h
    | some e => (s.release x h).setEntry x h.2 { e with sent := e.sent-1 }

/-- An acknowledgement wakes as many tasks as it gives credits. -/
def Network.handleImm (x : PeerKey) (i : ImmData) : Network :=
  match ImmData.ty i with
  | .ack =>
    let e := s.entry x (ImmData.src i)
    s.setEntry x (ImmData.src i) { e with
      acked := e.acked+(ImmData.count i).toUInt64
      wakers := e.wakers.drop (ImmData.count i).toNat }
  | .close | .other => s

def Network.deliver (x y : PeerKey) : Network :=
  match s.wire x y with
  | [] => s
  | packet::rest =>
    let s := { s with wire := put s.wire x y rest }
    match packet with
    | .data bytes => { s with queue := Function.update s.queue y (s.queue y ++ [(x,bytes)]) }
    | .imm i => s.handleImm y i

def saturatingAdd (a b : UInt32) : UInt32 := UInt32.ofNat (min (a.toNat+b.toNat) (2^32-1))

def Network.noteDrain (y peer : PeerKey) (ackPosted : Bool) : Network :=
  let e := s.entry y peer
  let notAcked := saturatingAdd e.notAcked 1
  if p.bufAckBatch ≤ notAcked then
    let s := s.setEntry y peer { e with notAcked := 0 }
    if ackPosted then s.send y peer (.imm (ImmData.ack y notAcked)) else s
  else s.setEntry y peer { e with notAcked := notAcked }

def Network.handle (y : PeerKey) (bytes : Bytes) (o : Outcome) : Network :=
  match p.decode bytes with
  | none => s
  | some (.req magic fromNodeId fromRuntimeId _) =>
    if magic ≠ envelopeMagic then s
    else if p.peerAt y ⟨fromNodeId,fromRuntimeId⟩ = false then s
    else if o.ah = false then s
    else s.noteDrain p y ⟨fromNodeId,fromRuntimeId⟩ o.ackPosted
  | some (.rsp magic requestId) =>
    if magic ≠ envelopeMagic then s
    else
      match s.pending y requestId with
      | some peer =>
        Network.noteDrain p { s with pending := put s.pending y requestId none } y peer o.ackPosted
      | none => s

def Network.drain (y : PeerKey) (o : Outcome) : Network :=
  match s.queue y with
  | [] => s
  | (_,bytes)::rest =>
    Network.handle p { s with queue := Function.update s.queue y rest } y bytes o

def Network.resetPeer (x y : PeerKey) : Network :=
  { s with perPeer := put s.perPeer x y none }

def Network.next : Event → Network
  | .credit x y task => s.credit p x y task
  | .post x task bytes => s.post x task bytes
  | .failedPost x task => s.failedPost x task
  | .deliver x y => s.deliver x y
  | .drain y o => s.drain p y o
  | .request x id peer => { s with pending := put s.pending x id (some peer) }
  | .timeout x id => { s with pending := put s.pending x id none }
  | .resetPeer x y => s.resetPeer x y

end Steps

section Conditions

variable (p : Setup) (s : Network)

def Blocked (x y : PeerKey) : Prop :=
  (s.entry x y).wakers ≠ [] ∧
    p.peerCredit.toUInt64 ≤ (s.entry x y).sent-(s.entry x y).acked

/-- Nothing is on its way between two endpoints, from the moment its credit is taken, and
nothing waits to be handled. -/
structure Quiet (x y : PeerKey) : Prop where
  wires : s.wire x y = [] ∧ s.wire y x = []
  queues : s.queue x = [] ∧ s.queue y = []
  holding : ∀ h ∈ s.holding x, h.2 ≠ y

/-- The peer whose credit the handler of a message gives back. -/
def notedPeer (y : PeerKey) (bytes : Bytes) (o : Outcome) : Option PeerKey :=
  match p.decode bytes with
  | none => none
  | some (.req magic fromNodeId fromRuntimeId _) =>
    if magic = envelopeMagic ∧ p.peerAt y ⟨fromNodeId,fromRuntimeId⟩ ∧ o.ah then
      some ⟨fromNodeId,fromRuntimeId⟩
    else none
  | some (.rsp magic requestId) => if magic = envelopeMagic then s.pending y requestId else none

/-- Every message handled gives back a credit of the endpoint that sent it and acknowledgements
are posted, by endpoints whose keys fit the immediate data; peers are not reset, and the
counter of sends does not wrap. -/
def Returned : Event → Prop
  | .credit x y _ => (s.entry x y).sent.toNat+1 < 2^64
  | .drain y o => (y.nodeId.toNat < 2^12 ∧ y.runtimeId.toNat < 2^8) ∧
      ∀ m ∈ (s.queue y).head?, notedPeer p s y m.2 o = some m.1 ∧ o.ackPosted = true
  | .resetPeer .. => False
  | _ => True

end Conditions

instance (p : Setup) (s : Network) (x y : PeerKey) : Decidable (Blocked p s x y) :=
  inferInstanceAs (Decidable (_ ∧ _))

instance (s : Network) (x y : PeerKey) : Decidable (Quiet s x y) :=
  decidable_of_iff ((s.wire x y = [] ∧ s.wire y x = []) ∧ (s.queue x = [] ∧ s.queue y = []) ∧
    ∀ h ∈ s.holding x, h.2 ≠ y) ⟨fun h => ⟨h.1,h.2.1,h.2.2⟩,fun h => ⟨h.wires,h.queues,h.holding⟩⟩

instance (p : Setup) (s : Network) : (e : Event) → Decidable (Returned p s e)
  | .credit x y _ => inferInstanceAs (Decidable ((s.entry x y).sent.toNat+1 < 2^64))
  | .drain y o => inferInstanceAs (Decidable ((_ < _ ∧ _ < _) ∧
      ∀ m ∈ (s.queue y).head?, notedPeer p s y m.2 o = some m.1 ∧ o.ackPosted = true))
  | .resetPeer .. => .isFalse id
  | .post .. | .failedPost .. | .deliver .. | .request .. | .timeout .. => .isTrue trivial

def Packet.isData : Packet → Bool
  | .data _ => true
  | .imm _ => false

def Packet.credits : Packet → ℕ
  | .data _ => 0
  | .imm i => (ImmData.count i).toNat

section Balance

variable (s : Network) (x y : PeerKey)

def held : ℕ := (s.holding x).countP (fun h => h.2 = y)

def onWire : ℕ := (s.wire x y).countP Packet.isData

def queued : ℕ := (s.queue y).countP (fun m => m.1 = x)

def acksOnWire : ℕ := ((s.wire x y).map Packet.credits).sum

def Balanced : Prop :=
  (s.entry x y).sent.toNat = (s.entry x y).acked.toNat+held s x y+onWire s x y+queued s x y+
    (s.entry y x).notAcked.toNat+acksOnWire s y x

end Balance

structure Conserved (p : Setup) (s : Network) : Prop where
  balance : ∀ x y, Balanced s x y
  batch : ∀ x y, (s.entry x y).notAcked < p.bufAckBatch
  acks : ∀ x y i, Packet.imm i ∈ s.wire x y → ImmData.ty i = .ack ∧ ImmData.src i = x

section Entries

variable {s : Network} {a b : PeerKey} {e : PeerCredit}

theorem entry_setEntry (x y : PeerKey) : (s.setEntry a b e).entry x y =
    if x = a ∧ y = b then e else s.entry x y := by
  simp only [Network.entry, Network.setEntry, put]
  split_ifs <;> rfl

theorem entry_setEntry_part {α : Type} (f : PeerCredit → α) (h : f e = f (s.entry a b))
    (x y : PeerKey) : f ((s.setEntry a b e).entry x y) = f (s.entry x y) := by
  rw [entry_setEntry]
  split_ifs with hc
  · rw [hc.1, hc.2, h]
  · rfl

end Entries

section Parts

variable {s : Network} {x y : PeerKey}

theorem held_concat (task : ℕ) (a b : PeerKey) :
    (Function.update s.holding x (s.holding x ++ [(task,y)]) a).countP (fun h => h.2 = b) =
      held s a b+if a = x ∧ b = y then 1 else 0 := by
  rw [Function.update_apply]
  by_cases ha : a = x
  · subst ha
    rw [if_pos rfl, List.countP_append, List.countP_singleton]
    simp [held, eq_comm]
  · simp [ha, held]

theorem held_erase {h : ℕ × PeerKey} (hmem : h ∈ s.holding x) (a b : PeerKey) :
    held (s.release x h) a b+(if a = x ∧ b = h.2 then 1 else 0) = held s a b := by
  show (Function.update s.holding x ((s.holding x).erase h) a).countP _+_ = _
  rw [Function.update_apply]
  by_cases ha : a = x
  · subst ha
    have hperm := (List.perm_cons_erase hmem).countP_eq (fun h => decide (h.2 = b))
    rw [if_pos rfl, held, hperm, List.countP_cons]
    simp [eq_comm]
  · simp [ha, held]

theorem onWire_send (packet : Packet) (a b : PeerKey) : onWire (s.send x y packet) a b =
    onWire s a b+if a = x ∧ b = y then packet.isData.toNat else 0 := by
  simp only [onWire, Network.send, put]
  split_ifs with hc
  · rw [hc.1, hc.2, List.countP_append, List.countP_singleton]
    cases packet <;> rfl
  · rfl

theorem acksOnWire_send (packet : Packet) (a b : PeerKey) : acksOnWire (s.send x y packet) a b =
    acksOnWire s a b+if a = x ∧ b = y then packet.credits else 0 := by
  simp only [acksOnWire, Network.send, put]
  split_ifs with hc
  · rw [hc.1, hc.2, List.map_append, List.sum_append, List.map_singleton, List.sum_singleton]
  · rfl

/-- The network after the first message of a wire was taken from it. -/
def Network.pop (s : Network) (x y : PeerKey) (rest : List Packet) : Network :=
  { s with wire := put s.wire x y rest }

variable {packet : Packet} {rest : List Packet}

theorem onWire_pop (h : s.wire x y = packet::rest) (a b : PeerKey) :
    onWire (s.pop x y rest) a b+(if a = x ∧ b = y then packet.isData.toNat else 0) =
      onWire s a b := by
  simp only [onWire, Network.pop, put]
  split_ifs with hc
  · rw [hc.1, hc.2, h, List.countP_cons]
    cases packet <;> rfl
  · rfl

theorem acksOnWire_pop (h : s.wire x y = packet::rest) (a b : PeerKey) :
    acksOnWire (s.pop x y rest) a b+(if a = x ∧ b = y then packet.credits else 0) =
      acksOnWire s a b := by
  simp only [acksOnWire, Network.pop, put]
  split_ifs with hc
  · rw [hc.1, hc.2, h, List.map_cons, List.sum_cons, Nat.add_comm]
  · rfl

theorem queued_concat (bytes : Bytes) (a b : PeerKey) :
    (Function.update s.queue y (s.queue y ++ [(x,bytes)]) b).countP (fun m => m.1 = a) =
      queued s a b+if a = x ∧ b = y then 1 else 0 := by
  rw [Function.update_apply]
  by_cases hb : b = y
  · subst hb
    rw [if_pos rfl, List.countP_append, List.countP_singleton]
    simp [queued, eq_comm]
  · simp [hb, queued]

theorem queued_pop {m : PeerKey × Bytes} {rest : List (PeerKey × Bytes)}
    (h : s.queue y = m::rest) (a b : PeerKey) :
    (Function.update s.queue y rest b).countP (fun m => m.1 = a)+
      (if a = m.1 ∧ b = y then 1 else 0) = queued s a b := by
  rw [Function.update_apply]
  by_cases hb : b = y
  · subst hb
    rw [if_pos rfl, queued, h, List.countP_cons]
    simp [eq_comm]
  · simp [hb, queued]

end Parts

section Steps

variable {p : Setup} {s : Network}

theorem toNat_sent_add {x y : PeerKey} (hwrap : (s.entry x y).sent.toNat+1 < 2^64)
    (a b : PeerKey) :
    ((s.setEntry x y { s.entry x y with sent := (s.entry x y).sent+1 }).entry a b).sent.toNat =
      (s.entry a b).sent.toNat+if a = x ∧ b = y then 1 else 0 := by
  rw [entry_setEntry]
  split_ifs with hc
  · rw [hc.1, hc.2]
    show ((s.entry x y).sent+1).toNat = _
    rw [UInt64.toNat_add]
    exact Nat.mod_eq_of_lt hwrap
  · rfl

theorem Conserved.credit (h : Conserved p s) {x y : PeerKey} {task : ℕ}
    (hwrap : (s.entry x y).sent.toNat+1 < 2^64) : Conserved p (s.credit p x y task) := by
  rw [Network.credit]
  dsimp only
  split_ifs with hwaits hfree
  · exact h
  · have hacked := @entry_setEntry_part s x y { s.entry x y with sent := (s.entry x y).sent+1 } _
      PeerCredit.acked rfl
    have hnot := @entry_setEntry_part s x y { s.entry x y with sent := (s.entry x y).sent+1 } _
      PeerCredit.notAcked rfl
    refine ⟨fun a b => ?_,fun a b => ?_,h.acks⟩
    · have hb := h.balance a b
      have hheld := @held_concat s x y task a b
      have hsent := toNat_sent_add hwrap a b
      rw [Balanced] at hb ⊢
      show ((s.setEntry x y _).entry a b).sent.toNat = ((s.setEntry x y _).entry a b).acked.toNat+
        List.countP _ _+onWire s a b+queued s a b+((s.setEntry x y _).entry b a).notAcked.toNat+
        acksOnWire s b a
      rw [hacked, hnot, hheld, hsent]
      omega
    · show ((s.setEntry x y _).entry a b).notAcked < _
      rw [hnot]
      exact h.batch a b
  · have hpart {α : Type} (f : PeerCredit → α) := @entry_setEntry_part s x y
      { s.entry x y with wakers := (s.entry x y).wakers ++ [task] } _ f
    refine ⟨fun a b => ?_,fun a b => ?_,h.acks⟩
    · have hb := h.balance a b
      rw [Balanced] at hb ⊢
      rw [hpart PeerCredit.sent rfl, hpart PeerCredit.acked rfl, hpart PeerCredit.notAcked rfl]
      exact hb
    · rw [hpart PeerCredit.notAcked rfl]
      exact h.batch a b

theorem mem_of_heldBy {x : PeerKey} {task : ℕ} {h : ℕ × PeerKey}
    (hh : s.heldBy x task = some h) : h ∈ s.holding x := List.mem_of_find?_eq_some hh

theorem imm_mem_send {x y a b : PeerKey} {packet : Packet} {i : ImmData}
    (h : Packet.imm i ∈ (s.send x y packet).wire a b) :
    Packet.imm i ∈ s.wire a b ∨ a = x ∧ packet = .imm i := by
  simp only [Network.send, put] at h
  split_ifs at h with hc
  · rcases List.mem_append.mp h with h | h
    · exact .inl (by rwa [hc.1, hc.2])
    · exact .inr ⟨hc.1,(List.mem_singleton.mp h).symm⟩
  · exact .inl h

theorem Conserved.post (h : Conserved p s) (x : PeerKey) (task : ℕ) (bytes : Bytes) :
    Conserved p (s.post x task bytes) := by
  rw [Network.post]
  cases hh : s.heldBy x task with
  | none => exact h
  | some g =>
    refine ⟨fun a b => ?_,h.batch,fun a b i hi => ?_⟩
    · have hb := h.balance a b
      have hheld := held_erase (mem_of_heldBy hh) a b
      have hwire := @onWire_send (s.release x g) x g.2 (.data bytes) a b
      have hacks := @acksOnWire_send (s.release x g) x g.2 (.data bytes) b a
      rw [Balanced] at hb ⊢
      show (s.entry a b).sent.toNat = (s.entry a b).acked.toNat+held (s.release x g) a b+
        onWire ((s.release x g).send x g.2 (.data bytes)) a b+queued s a b+
        (s.entry b a).notAcked.toNat+acksOnWire ((s.release x g).send x g.2 (.data bytes)) b a
      rw [hwire, hacks]
      change _ = _+_+(onWire s a b+if _ then 1 else 0)+_+_+(acksOnWire s b a+if _ then 0 else 0)
      split_ifs at hheld ⊢ <;> omega
    · rcases imm_mem_send hi with hi | ⟨-,hi⟩
      · exact h.acks a b i hi
      · cases hi

theorem Conserved.failedPost (h : Conserved p s) (x : PeerKey) (task : ℕ) :
    Conserved p (s.failedPost x task) := by
  rw [Network.failedPost]
  cases hh : s.heldBy x task with
  | none => exact h
  | some g =>
    have hmem := mem_of_heldBy hh
    have hpos : 0 < held s x g.2 := List.countP_pos_iff.mpr ⟨g,hmem,by simp⟩
    have hsent := h.balance x g.2
    rw [Balanced] at hsent
    dsimp only
    cases he : s.perPeer x g.2 with
    | none =>
      -- Without an entry nothing was sent, but the task holds a credit.
      have hnone : s.entry x g.2 = {} := by rw [Network.entry, he]; rfl
      rw [hnone] at hsent
      have : (0 : ℕ) = 0+held s x g.2+onWire s x g.2+queued s x g.2+
        (s.entry g.2 x).notAcked.toNat+acksOnWire s g.2 x := hsent
      omega
    | some e =>
      have hentry : s.entry x g.2 = e := by rw [Network.entry, he]; rfl
      have hpart {α : Type} (f : PeerCredit → α) := @entry_setEntry_part (s.release x g) x g.2
        { e with sent := e.sent-1 } _ f
      have hacked := hpart PeerCredit.acked (show e.acked = (s.entry x g.2).acked by rw [hentry])
      have hnot := hpart PeerCredit.notAcked 
        (show e.notAcked = (s.entry x g.2).notAcked by rw [hentry])
      refine ⟨fun a b => ?_,fun a b => ?_,h.acks⟩
      · have hb := h.balance a b
        have hheld := held_erase hmem a b
        have hless : (((s.release x g).setEntry x g.2 { e with sent := e.sent-1 }).entry a b
            ).sent.toNat+(if a = x ∧ b = g.2 then 1 else 0) = (s.entry a b).sent.toNat := by
          rw [entry_setEntry]
          split_ifs with hc
          · have hle : (1 : UInt64) ≤ e.sent :=
              UInt64.le_iff_toNat_le.mpr (show 1 ≤ e.sent.toNat by rw [← hentry]; omega)
            show (e.sent-1).toNat+1 = _
            rw [hc.1, hc.2, hentry, UInt64.toNat_sub_of_le _ _ hle]
            have := UInt64.le_iff_toNat_le.mp hle
            exact Nat.sub_add_cancel this
          · rfl
        rw [Balanced] at hb ⊢
        show (((s.release x g).setEntry x g.2 _).entry a b).sent.toNat =
          (((s.release x g).setEntry x g.2 _).entry a b).acked.toNat+held (s.release x g) a b+
          onWire s a b+queued s a b+(((s.release x g).setEntry x g.2 _).entry b a).notAcked.toNat+
          acksOnWire s b a
        rw [hacked, hnot]
        change _ = (s.entry a b).acked.toNat+_+_+_+(s.entry b a).notAcked.toNat+_
        omega
      · rw [hnot]
        exact h.batch a b

theorem Conserved.acked (h : Conserved p s) {x y : PeerKey} {i : ImmData} {rest : List Packet}
    (hw : s.wire x y = .imm i::rest)
    (hacks : ∀ a b i, Packet.imm i ∈ (s.pop x y rest).wire a b → ImmData.ty i = .ack ∧ ImmData.src i = a) :
    Conserved p ((s.pop x y rest).setEntry y x { s.entry y x with
      acked := (s.entry y x).acked+(ImmData.count i).toUInt64
      wakers := (s.entry y x).wakers.drop (ImmData.count i).toNat }) := by
  have hpart {α : Type} (f : PeerCredit → α) := @entry_setEntry_part (s.pop x y rest) y x
    { s.entry y x with
      acked := (s.entry y x).acked+(ImmData.count i).toUInt64
      wakers := (s.entry y x).wakers.drop (ImmData.count i).toNat } _ f
  have hsent := hpart PeerCredit.sent rfl
  have hnot := hpart PeerCredit.notAcked rfl
  have hpop (a b : PeerKey) := acksOnWire_pop hw a b
  have hadd : ((s.entry y x).acked+(ImmData.count i).toUInt64).toNat =
      (s.entry y x).acked.toNat+(ImmData.count i).toNat := by
    have hb := h.balance y x
    have hlt := (s.entry y x).sent.toNat_lt
    have hfirst := hpop x y
    rw [if_pos ⟨rfl,rfl⟩] at hfirst
    change _+(ImmData.count i).toNat = _ at hfirst
    rw [Balanced] at hb
    rw [UInt64.toNat_add, UInt32.toNat_toUInt64]
    exact Nat.mod_eq_of_lt (by omega)
  refine ⟨fun a b => ?_,fun a b => ?_,hacks⟩
  · have hb := h.balance a b
    have hwire := onWire_pop hw a b
    have hback := hpop b a
    have hmore : (((s.pop x y rest).setEntry y x { s.entry y x with
        acked := (s.entry y x).acked+(ImmData.count i).toUInt64
        wakers := (s.entry y x).wakers.drop (ImmData.count i).toNat }).entry a b).acked.toNat =
        (s.entry a b).acked.toNat+if b = x ∧ a = y then (ImmData.count i).toNat else 0 := by
      rw [entry_setEntry]
      by_cases hc : a = y ∧ b = x
      · rw [if_pos hc, if_pos hc.symm, hc.1, hc.2]
        exact hadd
      · rw [if_neg hc, if_neg fun hc' => hc hc'.symm]
        rfl
    rw [Balanced] at hb ⊢
    rw [hsent, hnot, hmore]
    change (s.entry a b).sent.toNat = _+held s a b+onWire (s.pop x y rest) a b+queued s a b+
      (s.entry b a).notAcked.toNat+acksOnWire (s.pop x y rest) b a
    simp only [Packet.isData, Packet.credits, Bool.toNat_false] at hwire hback
    split_ifs at hwire hback ⊢ <;> omega
  · rw [hnot]
    exact h.batch a b

theorem Conserved.deliver (h : Conserved p s) (x y : PeerKey) :
    Conserved p (s.deliver x y) := by
  rw [Network.deliver]
  cases hw : s.wire x y with
  | nil => exact h
  | cons packet rest =>
    have hacks (a b : PeerKey) (i : ImmData) (hi : Packet.imm i ∈ (s.pop x y rest).wire a b) :
        ImmData.ty i = .ack ∧ ImmData.src i = a := by
      apply h.acks a b i
      simp only [Network.pop, put] at hi
      split_ifs at hi with hc
      · rw [hc.1, hc.2, hw]
        exact List.mem_cons_of_mem _ hi
      · exact hi
    cases packet with
    | data bytes =>
      refine ⟨fun a b => ?_,h.batch,hacks⟩
      have hb := h.balance a b
      have hwire := onWire_pop hw a b
      have hback := acksOnWire_pop hw b a
      have hqueue := @queued_concat s x y bytes a b
      rw [Balanced] at hb ⊢
      show (s.entry a b).sent.toNat = (s.entry a b).acked.toNat+held s a b+
        onWire (s.pop x y rest) a b+List.countP _ _+(s.entry b a).notAcked.toNat+
        acksOnWire (s.pop x y rest) b a
      rw [hqueue]
      simp only [Packet.isData, Packet.credits, Bool.toNat_true] at hwire hback
      split_ifs at hwire hback ⊢ <;> omega
    | imm i =>
      obtain ⟨hty,hsrc⟩ := h.acks x y i (by rw [hw]; exact List.mem_cons_self)
      dsimp only
      rw [Network.handleImm, hty, hsrc]
      exact h.acked hw hacks

theorem toNat_saturatingAdd {a b : UInt32} (h : a < b) :
    (saturatingAdd a 1).toNat = a.toNat+1 := by
  have hlt := UInt32.lt_iff_toNat_lt.mp h
  have hb := b.toNat_lt
  rw [saturatingAdd, UInt32.toNat_ofNat_of_lt' (show _ < 2^32 by omega)]
  show min (a.toNat+1) (2^32-1) = a.toNat+1
  omega

/-- The balance when `y` took a message of `peer` from its queue and did not count it yet. -/
structure Due (p : Setup) (s : Network) (peer y : PeerKey) : Prop where
  balance : ∀ a b, (s.entry a b).sent.toNat = (s.entry a b).acked.toNat+held s a b+onWire s a b+
    queued s a b+(s.entry b a).notAcked.toNat+acksOnWire s b a+if a = peer ∧ b = y then 1 else 0
  batch : ∀ a b, (s.entry a b).notAcked < p.bufAckBatch
  acks : ∀ a b i, Packet.imm i ∈ s.wire a b → ImmData.ty i = .ack ∧ ImmData.src i = a

variable {y peer : PeerKey}

theorem Due.counted (h : Due p s peer y)
    (hfull : ¬p.bufAckBatch ≤ saturatingAdd (s.entry y peer).notAcked 1) :
    Conserved p (s.setEntry y peer { s.entry y peer with
      notAcked := saturatingAdd (s.entry y peer).notAcked 1 }) := by
  have hpart {α : Type} (f : PeerCredit → α) := @entry_setEntry_part s y peer
    { s.entry y peer with notAcked := saturatingAdd (s.entry y peer).notAcked 1 } _ f
  have hnot (a b : PeerKey) : ((s.setEntry y peer { s.entry y peer with
      notAcked := saturatingAdd (s.entry y peer).notAcked 1 }).entry b a).notAcked.toNat =
      (s.entry b a).notAcked.toNat+if a = peer ∧ b = y then 1 else 0 := by
    rw [entry_setEntry]
    by_cases hc : a = peer ∧ b = y
    · rw [if_pos hc, if_pos hc.symm, hc.1, hc.2]
      exact toNat_saturatingAdd (h.batch y peer)
    · rw [if_neg hc, if_neg fun hc' => hc hc'.symm]
      rfl
  refine ⟨fun a b => ?_,fun a b => ?_,h.acks⟩
  · have hb := h.balance a b
    rw [Balanced, hpart PeerCredit.sent rfl, hpart PeerCredit.acked rfl, hnot]
    change _ = _+held s a b+onWire s a b+queued s a b+_+acksOnWire s b a
    omega
  · rw [entry_setEntry]
    split_ifs
    · exact UInt32.not_le.mp hfull
    · exact h.batch a b

theorem Due.batched (h : Due p s peer y)
    (hkey : y.nodeId.toNat < 2^12 ∧ y.runtimeId.toNat < 2^8) (hsmall : p.bufAckBatch.toNat < 256) :
    Conserved p ((s.setEntry y peer { s.entry y peer with notAcked := 0 }).send y peer
      (.imm (ImmData.ack y (saturatingAdd (s.entry y peer).notAcked 1)))) := by
  have hpart {α : Type} (f : PeerCredit → α) := @entry_setEntry_part s y peer
    { s.entry y peer with notAcked := 0 } _ f
  have hlt := UInt32.lt_iff_toNat_lt.mp (h.batch y peer)
  have hcount : (ImmData.count (ImmData.ack y (saturatingAdd (s.entry y peer).notAcked 1))).toNat =
      (s.entry y peer).notAcked.toNat+1 := by
    rw [toNat_count_ack, toNat_saturatingAdd (h.batch y peer)]
    omega
  have hnot (a b : PeerKey) : ((s.setEntry y peer { s.entry y peer with notAcked := 0 }).entry b a
      ).notAcked.toNat+(if b = y ∧ a = peer then (s.entry y peer).notAcked.toNat else 0) =
      (s.entry b a).notAcked.toNat := by
    rw [entry_setEntry]
    split_ifs with hc
    · rw [hc.1, hc.2]
      exact Nat.zero_add _
    · rfl
  refine ⟨fun a b => ?_,fun a b => ?_,fun a b i hi => ?_⟩
  · have hb := h.balance a b
    have hless := hnot a b
    have hwire := @onWire_send (s.setEntry y peer { s.entry y peer with notAcked := 0 }) y peer
      (.imm (ImmData.ack y (saturatingAdd (s.entry y peer).notAcked 1))) a b
    have hback := @acksOnWire_send (s.setEntry y peer { s.entry y peer with notAcked := 0 }) y
      peer (.imm (ImmData.ack y (saturatingAdd (s.entry y peer).notAcked 1))) b a
    rw [Packet.isData, Bool.toNat_false, ite_self] at hwire
    rw [Packet.credits, hcount] at hback
    rw [Balanced, hwire, hback]
    change ((s.setEntry y peer _).entry a b).sent.toNat =
      ((s.setEntry y peer _).entry a b).acked.toNat+held s a b+(onWire s a b+0)+queued s a b+
      ((s.setEntry y peer _).entry b a).notAcked.toNat+(acksOnWire s b a+_)
    rw [hpart PeerCredit.sent rfl, hpart PeerCredit.acked rfl]
    rw [if_congr and_comm rfl rfl] at hb
    split_ifs at hb hless ⊢ <;> omega
  · change ((s.setEntry y peer _).entry a b).notAcked < _
    rw [entry_setEntry]
    split_ifs
    · exact UInt32.lt_iff_toNat_lt.mpr (show 0 < _ by omega)
    · exact h.batch a b
  · rcases imm_mem_send hi with hi | ⟨rfl,hi⟩
    · exact h.acks a b i hi
    · cases hi
      exact ⟨ty_ack a _,(src_ack_iff a _).mpr hkey⟩

theorem Due.noteDrain (h : Due p s peer y)
    (hkey : y.nodeId.toNat < 2^12 ∧ y.runtimeId.toNat < 2^8) (hsmall : p.bufAckBatch.toNat < 256) :
    Conserved p (s.noteDrain p y peer true) := by
  rw [Network.noteDrain]
  dsimp only
  by_cases hfull : p.bufAckBatch ≤ saturatingAdd (s.entry y peer).notAcked 1
  · rw [if_pos hfull, if_pos rfl]
    exact h.batched hkey hsmall
  · rw [if_neg hfull]
    exact h.counted hfull

theorem handle_noted {bytes : Bytes} {o : Outcome} (h : notedPeer p s y bytes o = some peer) :
    ∃ pending, s.handle p y bytes o =
      Network.noteDrain p { s with pending := pending } y peer o.ackPosted := by
  rw [notedPeer] at h
  rw [Network.handle]
  match p.decode bytes, h with
  | some (.req magic fromNodeId fromRuntimeId _), h =>
    dsimp only at h ⊢
    split_ifs at h with hc
    cases h
    refine ⟨s.pending,?_⟩
    rw [if_neg (not_not.mpr hc.1), if_neg (by simp [hc.2.1]), if_neg (by simp [hc.2.2])]
  | some (.rsp magic requestId), h =>
    dsimp only at h ⊢
    split_ifs at h with hc
    rw [if_neg (not_not.mpr hc), h]
    exact ⟨_,rfl⟩

theorem Conserved.drain (h : Conserved p s) {o : Outcome} (hsmall : p.bufAckBatch.toNat < 256)
    (hreturned : Returned p s (.drain y o)) : Conserved p (s.drain p y o) := by
  obtain ⟨hkey,hnoted⟩ := hreturned
  rw [Network.drain]
  cases hq : s.queue y with
  | nil => exact h
  | cons m rest =>
    obtain ⟨hnoted,hposted⟩ := hnoted m (by rw [hq]; rfl)
    obtain ⟨pending,hhandle⟩ := @handle_noted p { s with queue := Function.update s.queue y rest }
      y m.1 m.2 o hnoted
    dsimp only
    rw [hhandle, hposted]
    refine Due.noteDrain ⟨fun a b => ?_,h.batch,h.acks⟩ hkey hsmall
    have hb := h.balance a b
    have hpop := queued_pop hq a b
    rw [Balanced] at hb
    show (s.entry a b).sent.toNat = (s.entry a b).acked.toNat+held s a b+onWire s a b+
      (Function.update s.queue y rest b).countP (fun m => m.1 = a)+(s.entry b a).notAcked.toNat+
      acksOnWire s b a+_
    omega

end Steps

open ServerConfig Lib.GuardedRuns

section Runs

variable {p : Setup} {s : Network}

theorem Conserved.next (h : Conserved p s) {e : Event} (hsmall : p.bufAckBatch.toNat < 256)
    (hreturned : Returned p s e) : Conserved p (s.next p e) := by
  cases e with
  | credit x y task => exact h.credit hreturned
  | post x task bytes => exact h.post x task bytes
  | failedPost x task => exact h.failedPost x task
  | deliver x y => exact h.deliver x y
  | drain y o => exact h.drain hsmall hreturned
  | request x id peer => exact ⟨h.balance,h.batch,h.acks⟩
  | timeout x id => exact ⟨h.balance,h.batch,h.acks⟩
  | resetPeer x y => exact hreturned.elim

theorem conserved_new (hpos : 0 < p.bufAckBatch) : Conserved p .new :=
  ⟨fun _ _ => rfl,fun _ _ => hpos,fun _ _ _ hi => by cases hi⟩

/-- No more credits come back than were taken, and nothing on its way means that no sender
waits for a credit. -/
structure Settled (p : Setup) (s : Network) : Prop where
  acked_le : ∀ x y, (s.entry x y).acked ≤ (s.entry x y).sent
  free : ∀ x y, Quiet s x y → ¬Blocked p s x y

theorem Conserved.outstanding (h : Conserved p s) {x y : PeerKey} (hquiet : Quiet s x y) :
    (s.entry x y).sent.toNat = (s.entry x y).acked.toNat+(s.entry y x).notAcked.toNat := by
  have hb := h.balance x y
  have hheld : held s x y = 0 := by
    rw [held, List.countP_eq_zero]
    exact fun g hg => by simpa using hquiet.holding g hg
  have hwire : onWire s x y = 0 := by rw [onWire, hquiet.wires.1]; rfl
  have hqueue : queued s x y = 0 := by rw [queued, hquiet.queues.2]; rfl
  have hacks : acksOnWire s y x = 0 := by rw [acksOnWire, hquiet.wires.2]; rfl
  rw [Balanced] at hb
  omega

theorem Conserved.settled (h : Conserved p s) (hbatch : p.bufAckBatch ≤ p.peerCredit) :
    Settled p s := by
  have hle (x y : PeerKey) : (s.entry x y).acked ≤ (s.entry x y).sent := by
    have hb := h.balance x y
    rw [Balanced] at hb
    exact UInt64.le_iff_toNat_le.mpr (by omega)
  refine ⟨hle,fun x y hquiet hblocked => ?_⟩
  have hout := h.outstanding hquiet
  have hcount := UInt32.lt_iff_toNat_lt.mp (h.batch y x)
  have hcredit := UInt32.le_iff_toNat_le.mp hbatch
  have hwait := UInt64.le_iff_toNat_le.mp hblocked.2
  rw [UInt64.toNat_sub_of_le _ _ (hle x y), UInt32.toNat_toUInt64] at hwait
  omega

/-- In every run in which each message handled gives back a credit of its sender, with batches
that fit the credit and the immediate data, all credits come back. -/
theorem credits_given_back (p : Setup) (hpos : 0 < p.bufAckBatch)
    (hbatch : p.bufAckBatch ≤ p.peerCredit) (hsmall : p.bufAckBatch.toNat < 256)
    {events : List Event} (h : Always (Network.next p) (Returned p) .new events) :
    Settled p (after (Network.next p) .new events) :=
  (h.invariant (Conserved p) (fun _ _ hs he => hs.next hsmall he) (conserved_new hpos)).settled
    hbatch

end Runs

def left : PeerKey := ⟨0,0⟩

def right : PeerKey := ⟨1,0⟩

/-- Two credits. Messages are requests of `left`, except an empty one, which does not decode. -/
def sampleSetup (bufAckBatch : UInt32) : Setup where
  peerCredit := 2
  bufAckBatch := bufAckBatch
  decode bytes := if bytes = [] then none else some (.req envelopeMagic 0 0 0)
  peerAt _ _ := true

def exchange (bytes : Bytes) : List Event :=
  [.credit left right 0,.post left 0 bytes,.deliver left right,.drain right ⟨true,true⟩]

def twoAndWait (bytes : Bytes) : List Event :=
  exchange bytes ++ exchange bytes ++ [Event.credit left right 1]

def sampleEnd (bufAckBatch : UInt32) (events : List Event) : Network :=
  after (Network.next (sampleSetup bufAckBatch)) .new events

theorem exchanges_settled :
    Always (Network.next (sampleSetup 2)) (Returned (sampleSetup 2)) .new
      (exchange [1] ++ exchange [2] ++ [.deliver right left]) ∧
    Settled (sampleSetup 2) (sampleEnd 2 (exchange [1] ++ exchange [2] ++ [.deliver right left])) := by
  have hrun : Always (Network.next (sampleSetup 2)) (Returned (sampleSetup 2)) .new
      (exchange [1] ++ exchange [2] ++ [.deliver right left]) := by decide +kernel
  exact ⟨hrun,credits_given_back (sampleSetup 2) (by decide) (by decide) (by decide) hrun⟩

/-- A credit of two is accepted. With the default batch of four the sender is blocked after two
requests that were handled, with a batch of one after two messages that do not decode. After a
reset an acknowledgement on its way gives back a credit that was not taken. -/
theorem sender_blocked :
    (fromToml RecvBuffers.rdmaEnv (fun _ => .ok (RecvBuffers.rdmaNodes 1024)) "").isOk = true ∧
    (RecvBuffers.rdmaNodes 1024).rdma.map RdmaToml.peerCredit = some 2 ∧
    Quiet (sampleEnd 4 (twoAndWait [1])) left right ∧
    Blocked (sampleSetup 4) (sampleEnd 4 (twoAndWait [1])) left right ∧
    Quiet (sampleEnd 1 (twoAndWait [])) left right ∧
    Blocked (sampleSetup 1) (sampleEnd 1 (twoAndWait [])) left right ∧
    let s := sampleEnd 1 (exchange [1] ++ [.resetPeer left right,.deliver right left])
    (s.entry left right).sent < (s.entry left right).acked := by
  decide +kernel

end Openlake.PeerCredits
