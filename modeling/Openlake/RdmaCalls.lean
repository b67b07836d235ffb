import Openlake.PeerCredits
import Openlake.SendBuffers

/-!
# Calls that send and messages that are handled

A call of `send_with_kind` cuts its bytes into buffers. For each it waits for a
credit of the peer, then for a send buffer, and posts it. Calls of one endpoint
interleave. Posted sends are delivered in order, and every message that is copied
out of a receive buffer is handed to the handler by itself.

The sends posted from one endpoint to another are, in order, the messages that
were handed over followed by those on their way. All are handed over once the
wire and the queue are worked off, and a call is one message exactly when it fits
one buffer and is not empty.
-/

set_option autoImplicit false

namespace Openlake.RdmaCalls
open Openlake.Types Rdma PeerCredits

def sendBufCnt : ℕ := 4

/-- `bytes` is what the call was made with and `buf` what it has not posted yet. `acquire` is
the number of its request for a send buffer. -/
structure Call where
  peer : PeerKey
  bytes : Bytes
  buf : Bytes
  acquire : Option ℕ
  failed : Bool
  deriving DecidableEq, Repr

structure Link where
  net : Network
  socks : PeerKey → Socket
  calls : PeerKey → ℕ → Option Call
  posted : PeerKey → PeerKey → List (ℕ × Bytes)
  handed : PeerKey → List (PeerKey × Bytes)

def Link.new : Link :=
  ⟨.new,fun _ => .new sendBufCnt,fun _ _ => none,fun _ _ => [],fun _ => []⟩

inductive Event where
  | call (x : PeerKey) (task : ℕ) (peer : PeerKey) (bytes : Bytes)
  | credit (x : PeerKey) (task : ℕ)
  | wake (x : PeerKey) (caller : ℕ)
  | post (x : PeerKey) (task : ℕ)
  | failedPost (x : PeerKey) (task : ℕ)
  | completion (x : PeerKey)
  | deliver (x y : PeerKey)
  | drain (y : PeerKey) (o : Outcome)
  | request (x : PeerKey) (id : UInt64) (peer : PeerKey)
  | timeout (x : PeerKey) (id : UInt64)
  | resetPeer (x y : PeerKey)
  deriving DecidableEq, Repr

section Steps

variable (p : Setup) (s : Link)

def Link.setCall (x : PeerKey) (task : ℕ) (c : Call) : Link :=
  { s with calls := put s.calls x task (some c) }

def Link.sock (x : PeerKey) (e : Rdma.Event) : Link :=
  { s with socks := Function.update s.socks x ((s.socks x).next e) }

def Link.call (x : PeerKey) (task : ℕ) (peer : PeerKey) (bytes : Bytes) : Link :=
  match s.calls x task with
  | none => s.setCall x task ⟨peer,bytes,bytes,none,false⟩
  | some _ => s

/-- A call that gets a credit asks for a send buffer at once. -/
def Link.credit (x : PeerKey) (task : ℕ) : Link :=
  match s.calls x task with
  | none => s
  | some c =>
    if c.failed = true ∨ c.buf = [] ∨ c.acquire.isSome = true then s
    else
      let s := { s with net := s.net.credit p x c.peer task }
      match s.net.heldBy x task with
      | none => s
      | some _ =>
        (s.sock x .acquire).setCall x task { c with acquire := some (s.socks x).calls }

/-- The buffer of a call that waits for one, once it has it. -/
def Link.bufferOf (x : PeerKey) (c : Call) : Option Grant :=
  c.acquire.bind (fun n => of n (s.socks x).holding)

def Link.post (x : PeerKey) (task : ℕ) : Link :=
  match s.calls x task with
  | none => s
  | some c =>
    match s.bufferOf x c with
    | none => s
    | some g =>
      let n := c.buf.take bufSize
      let s := { s with
        net := s.net.post x task n
        posted := put s.posted x c.peer (s.posted x c.peer ++ [(task,n)]) }
      (s.sock x (.post g.caller)).setCall x task
        { c with buf := c.buf.drop bufSize, acquire := none }

def Link.failedPost (x : PeerKey) (task : ℕ) : Link :=
  match s.calls x task with
  | none => s
  | some c =>
    match s.bufferOf x c with
    | none => s
    | some g =>
      let s := { s with net := s.net.failedPost x task }
      (s.sock x (.failedPost g.caller)).setCall x task { c with acquire := none, failed := true }

def Link.drain (y : PeerKey) (o : Outcome) : Link :=
  { s with
    net := s.net.drain p y o
    handed := Function.update s.handed y (s.handed y ++ (s.net.queue y).head?.toList) }

def Link.next : Event → Link
  | .call x task peer bytes => s.call x task peer bytes
  | .credit x task => s.credit p x task
  | .wake x caller => s.sock x (.wake caller)
  | .post x task => s.post x task
  | .failedPost x task => s.failedPost x task
  | .completion x => s.sock x .completion
  | .deliver x y => { s with net := s.net.deliver x y }
  | .drain y o => s.drain p y o
  | .request x id peer => { s with net := s.net.next p (.request x id peer) }
  | .timeout x id => { s with net := s.net.next p (.timeout x id) }
  | .resetPeer x y => { s with net := s.net.resetPeer x y }

end Steps

section Handed

variable (s : Link) (x y : PeerKey)

/-- The messages from `x` that were handed to the handler of `y`. -/
def handedFrom : List Bytes := ((s.handed y).filter (fun m => m.1 = x)).map Prod.snd

/-- Those of them that a call sent: sends arrive in the order they were posted. -/
def handedOf (task : ℕ) : List Bytes :=
  ((((s.posted x y).map Prod.fst).zip (handedFrom s x y)).filter (fun m => m.1 = task)).map Prod.snd

def Delivered (task : ℕ) : Prop :=
  ∀ m ∈ (s.posted x y).drop (handedFrom s x y).length, m.1 ≠ task

end Handed

instance (s : Link) (x y : PeerKey) (task : ℕ) : Decidable (Delivered s x y task) :=
  inferInstanceAs (Decidable (∀ m ∈ _, _))

def payload : Packet → Option Bytes
  | .data bytes => some bytes
  | .imm _ => none

/-- The messages from `x` to `y` that were not handed over yet, in order. -/
def inTransit (n : Network) (x y : PeerKey) : List Bytes :=
  ((n.queue y).filter (fun m => m.1 = x)).map Prod.snd ++ (n.wire x y).filterMap payload

section Transit

variable {p : Setup} {n : Network}

theorem inTransit_credit (x y : PeerKey) (task : ℕ) (a b : PeerKey) :
    inTransit (n.credit p x y task) a b = inTransit n a b := by
  rw [Network.credit]
  dsimp only
  split_ifs <;> rfl

theorem inTransit_failedPost (x : PeerKey) (task : ℕ) (a b : PeerKey) :
    inTransit (n.failedPost x task) a b = inTransit n a b := by
  rw [Network.failedPost]
  cases n.heldBy x task with
  | none => rfl
  | some h =>
    dsimp only
    cases n.perPeer x h.2 <;> rfl

theorem inTransit_send (x y : PeerKey) (packet : Packet) (a b : PeerKey) :
    inTransit (n.send x y packet) a b =
      inTransit n a b ++ if a = x ∧ b = y then (payload packet).toList else [] := by
  simp only [inTransit, Network.send, put]
  split_ifs with hc
  · rw [hc.1, hc.2, List.filterMap_append, List.append_assoc]
    cases packet <;> rfl
  · rw [List.append_nil]

theorem inTransit_post {x y : PeerKey} {task : ℕ} (h : n.heldBy x task = some (task,y))
    (bytes : Bytes) (a b : PeerKey) : inTransit (n.post x task bytes) a b =
      inTransit n a b ++ if a = x ∧ b = y then [bytes] else [] := by
  rw [Network.post, h]
  exact inTransit_send x y (.data bytes) a b

theorem inTransit_handleImm (x : PeerKey) (i : ImmData) (a b : PeerKey) :
    inTransit (n.handleImm x i) a b = inTransit n a b := by
  rw [Network.handleImm]
  cases ImmData.ty i <;> rfl

/-- A message that is delivered is the last of the queue and was the first on the wire. -/
theorem inTransit_deliver (x y : PeerKey) (a b : PeerKey) :
    inTransit (n.deliver x y) a b = inTransit n a b := by
  rw [Network.deliver]
  cases hw : n.wire x y with
  | nil => rfl
  | cons packet rest =>
    cases packet with
    | data bytes =>
      simp only [inTransit, put, Function.update_apply]
      by_cases hb : b = y
      · subst hb
        by_cases ha : a = x
        · subst ha
          simp [hw, payload]
        · simp [ha, Ne.symm ha]
      · simp [hb]
    | imm i =>
      refine (inTransit_handleImm y i a b).trans ?_
      simp only [inTransit, put]
      split_ifs with hc
      · rw [hc.1, hc.2, hw]
        rfl
      · rfl

theorem inTransit_noteDrain (y peer : PeerKey) (ackPosted : Bool) (a b : PeerKey) :
    inTransit (n.noteDrain p y peer ackPosted) a b = inTransit n a b := by
  rw [Network.noteDrain]
  dsimp only
  split_ifs
  · rw [inTransit_send]
    exact (congrArg _ (ite_self _)).trans (List.append_nil _)
  · rfl
  · rfl

theorem inTransit_handle (y : PeerKey) (bytes : Bytes) (o : Outcome) (a b : PeerKey) :
    inTransit (n.handle p y bytes o) a b = inTransit n a b := by
  rw [Network.handle]
  cases p.decode bytes with
  | none => rfl
  | some packet =>
    cases packet with
    | req =>
      dsimp only
      split_ifs
      · rfl
      · rfl
      · rfl
      · exact inTransit_noteDrain _ _ _ a b
    | rsp _ requestId =>
      dsimp only
      split_ifs
      · rfl
      · cases n.pending y requestId with
        | none => rfl
        | some peer => exact inTransit_noteDrain _ _ _ a b

theorem inTransit_drain (y : PeerKey) (o : Outcome) (a b : PeerKey) : inTransit n a b =
    (if b = y then (((n.queue y).head?.toList).filter (fun m => m.1 = a)).map Prod.snd else []) ++
      inTransit (n.drain p y o) a b := by
  rw [Network.drain]
  cases hq : n.queue y with
  | nil => simp
  | cons m rest =>
    rw [inTransit_handle]
    simp only [inTransit, Function.update_apply]
    split_ifs with hb
    · rw [hb, hq]
      by_cases ha : m.1 = a <;> simp [ha]
    · rfl

end Transit

section Held

variable {p : Setup} {n : Network}

theorem noteDrain_frame (y peer : PeerKey) (ackPosted : Bool) :
    (n.noteDrain p y peer ackPosted).holding = n.holding ∧
      (n.noteDrain p y peer ackPosted).queue = n.queue := by
  rw [Network.noteDrain]
  dsimp only
  split_ifs <;> exact ⟨rfl,rfl⟩

theorem handle_frame (y : PeerKey) (bytes : Bytes) (o : Outcome) :
    (n.handle p y bytes o).holding = n.holding ∧ (n.handle p y bytes o).queue = n.queue := by
  rw [Network.handle]
  cases p.decode bytes with
  | none => exact ⟨rfl,rfl⟩
  | some packet =>
    cases packet with
    | req =>
      dsimp only
      split_ifs
      · exact ⟨rfl,rfl⟩
      · exact ⟨rfl,rfl⟩
      · exact ⟨rfl,rfl⟩
      · exact noteDrain_frame _ _ _
    | rsp _ requestId =>
      dsimp only
      split_ifs
      · exact ⟨rfl,rfl⟩
      · cases n.pending y requestId with
        | none => exact ⟨rfl,rfl⟩
        | some peer => exact noteDrain_frame _ _ _

theorem drain_frame (y : PeerKey) (o : Outcome) : (n.drain p y o).holding = n.holding ∧
    (n.drain p y o).queue y = (n.queue y).tail := by
  rw [Network.drain]
  cases hq : n.queue y with
  | nil => exact ⟨rfl,hq⟩
  | cons m rest =>
    obtain ⟨hholding,hqueue⟩ := @handle_frame p { n with queue := Function.update n.queue y rest }
      y m.2 o
    exact ⟨hholding,(congrFun hqueue y).trans (Function.update_self y rest n.queue)⟩

theorem holding_deliver (x y : PeerKey) : (n.deliver x y).holding = n.holding := by
  rw [Network.deliver]
  cases n.wire x y with
  | nil => rfl
  | cons packet rest =>
    cases packet with
    | data bytes => rfl
    | imm i =>
      dsimp only
      rw [Network.handleImm]
      cases ImmData.ty i <;> rfl

theorem wire_deliver (x y : PeerKey) : (n.deliver x y).wire x y = (n.wire x y).tail := by
  rw [Network.deliver]
  cases hw : n.wire x y with
  | nil => exact hw
  | cons packet rest =>
    cases packet with
    | data bytes => exact if_pos ⟨rfl,rfl⟩
    | imm i =>
      dsimp only
      rw [Network.handleImm]
      cases ImmData.ty i <;> exact if_pos ⟨rfl,rfl⟩

theorem holding_credit (x y : PeerKey) (task : ℕ) : (n.credit p x y task).holding = n.holding ∨
    (n.credit p x y task).holding = Function.update n.holding x (n.holding x ++ [(task,y)]) := by
  rw [Network.credit]
  dsimp only
  split_ifs
  · exact .inl rfl
  · exact .inr rfl
  · exact .inl rfl

theorem find?_erase_key {l : List (ℕ × PeerKey)} (hnodup : (l.map Prod.fst).Nodup)
    {h : ℕ × PeerKey} (hmem : h ∈ l) (t : ℕ) : (l.erase h).find? (fun g => g.1 = t) =
      if t = h.1 then none else l.find? (fun g => g.1 = t) := by
  induction l with
  | nil => cases hmem
  | cons a l ih =>
    rw [List.map_cons, List.nodup_cons] at hnodup
    by_cases ha : a = h
    · subst ha
      rw [List.erase_cons_head]
      split_ifs with ht
      · subst ht
        rw [List.find?_eq_none]
        exact fun g hg hga => hnodup.1 (List.mem_map.mpr ⟨g,hg,by simpa using hga⟩)
      · rw [List.find?_cons_of_neg (by simpa using Ne.symm ht)]
    · have hmem : h ∈ l := (List.mem_cons.mp hmem).resolve_left (Ne.symm ha)
      have hne : a.1 ≠ h.1 := fun he => hnodup.1 (List.mem_map.mpr ⟨h,hmem,he.symm⟩)
      rw [List.erase_cons_tail (by simpa using ha)]
      by_cases hat : a.1 = t
      · subst hat
        rw [if_neg hne, List.find?_cons_of_pos (by simp), List.find?_cons_of_pos (by simp)]
      · rw [List.find?_cons_of_neg (by simpa using hat), List.find?_cons_of_neg (by simpa using hat)]
        exact ih hnodup.2 hmem

end Held

def pieces : Bytes → List Bytes
  | [] => []
  | b::bytes => (b::bytes).take bufSize::pieces ((b::bytes).drop bufSize)
termination_by bytes => bytes.length
decreasing_by
  rw [List.length_drop, bufSize, List.length_cons]
  omega

theorem pieces_nil : pieces [] = [] := by
  rw [pieces]

theorem pieces_cons {bytes : Bytes} (h : bytes ≠ []) :
    pieces bytes = bytes.take bufSize::pieces (bytes.drop bufSize) := by
  cases bytes with
  | nil => exact absurd rfl h
  | cons b bytes => rw [pieces]

theorem pieces_eq_singleton_iff (bytes : Bytes) :
    pieces bytes = [bytes] ↔ 0 < bytes.length ∧ bytes.length ≤ bufSize := by
  by_cases h : bytes = []
  · subst h
    simp [pieces_nil]
  · rw [pieces_cons h, List.cons.injEq, List.take_eq_self_iff]
    constructor
    · rintro ⟨hle,-⟩
      exact ⟨List.length_pos_iff.mpr h,hle⟩
    · rintro ⟨-,hle⟩
      exact ⟨hle,by rw [List.drop_eq_nil_of_le hle, pieces_nil]⟩

def postedBy (s : Link) (x y : PeerKey) (task : ℕ) : List Bytes :=
  ((s.posted x y).filter (fun m => m.1 = task)).map Prod.snd

/-- The credit that a call holds while it waits for its buffer. -/
def Call.held (c : Call) (task : ℕ) : Option (ℕ × PeerKey) :=
  if c.acquire.isSome = true then some (task,c.peer) else none

/-- Sends are in order, a call posts the pieces of its bytes, and it holds a credit exactly
while it waits for its buffer. -/
structure Inv (s : Link) : Prop where
  order : ∀ x y, (s.posted x y).map Prod.snd = handedFrom s x y ++ inTransit s.net x y
  calls : ∀ x task c, s.calls x task = some c →
    postedBy s x c.peer task ++ pieces c.buf = pieces c.bytes ∧
      (c.acquire.isSome = true → c.buf ≠ [])
  fresh : ∀ x y task, s.calls x task = none → postedBy s x y task = []
  held : ∀ x task, s.net.heldBy x task = (s.calls x task).bind (fun c => c.held task)
  nodup : ∀ x, ((s.net.holding x).map Prod.fst).Nodup

theorem inv_new : Inv .new where
  order _ _ := rfl
  calls _ _ _ h := by cases h
  fresh _ _ _ _ := rfl
  held _ _ := rfl
  nodup _ := List.nodup_nil

section Steps

variable {p : Setup} {s : Link} {n : Network}

/-- A step of the network that moves messages on and leaves the credits that are held. -/
theorem Inv.net (h : Inv s) (htransit : ∀ x y, inTransit n x y = inTransit s.net x y)
    (hholding : n.holding = s.net.holding) : Inv { s with net := n } where
  order x y := (h.order x y).trans (congrArg _ (htransit x y).symm)
  calls := h.calls
  fresh := h.fresh
  held x task := by
    show (n.holding x).find? _ = _
    rw [hholding]
    exact h.held x task
  nodup x := by
    show ((n.holding x).map Prod.fst).Nodup
    rw [hholding]
    exact h.nodup x

variable {x : PeerKey} {task : ℕ} {c : Call}

theorem Inv.step (h : Inv s) {s' : Link}
    (hcalls : s'.calls = put s.calls x task (some c))
    (horder : ∀ a b, (s'.posted a b).map Prod.snd = handedFrom s' a b ++ inTransit s'.net a b)
    (hposted : ∀ a b t, ¬(a = x ∧ t = task) → postedBy s' a b t = postedBy s a b t)
    (hpieces : postedBy s' x c.peer task ++ pieces c.buf = pieces c.bytes)
    (hbuf : c.acquire.isSome = true → c.buf ≠ [])
    (hheld : ∀ a t, s'.net.heldBy a t =
      if a = x ∧ t = task then c.held task else s.net.heldBy a t)
    (hnodup : ∀ a, ((s'.net.holding a).map Prod.fst).Nodup) : Inv s' := by
  refine ⟨horder,fun a t c' hc' => ?_,fun a b t hnone => ?_,fun a t => ?_,hnodup⟩
  · rw [hcalls, put] at hc'
    split_ifs at hc' with heq
    · obtain ⟨rfl,rfl⟩ := heq
      cases hc'
      exact ⟨hpieces,hbuf⟩
    · rw [hposted a c'.peer t heq]
      exact h.calls a t c' hc'
  · rw [hcalls, put] at hnone
    split_ifs at hnone with heq
    rw [hposted a b t heq]
    exact h.fresh a b t hnone
  · rw [hheld, hcalls, put]
    split_ifs with heq
    · rw [heq.2]
      rfl
    · exact h.held a t

theorem Inv.sock (h : Inv s) (x : PeerKey) (e : Rdma.Event) : Inv (s.sock x e) :=
  ⟨h.order,h.calls,h.fresh,h.held,h.nodup⟩

theorem Inv.call (h : Inv s) (x : PeerKey) (task : ℕ) (peer : PeerKey) (bytes : Bytes) :
    Inv (s.call x task peer bytes) := by
  rw [Link.call]
  cases hcall : s.calls x task with
  | some c => exact h
  | none =>
    have hheld : s.net.heldBy x task = none := by rw [h.held, hcall]; rfl
    refine h.step rfl h.order (fun _ _ _ _ => rfl) ?_ (fun hsome => by cases hsome)
      (fun a t => ?_) h.nodup
    · exact congrArg (fun l => l ++ pieces bytes) (h.fresh x peer task hcall)
    · split_ifs with heq
      · rw [heq.1, heq.2]
        exact hheld
      · rfl

theorem heldBy_update {l : List (ℕ × PeerKey)}
    (hholding : n.holding = Function.update s.net.holding x l) (a : PeerKey) (t : ℕ) :
    n.heldBy a t = if a = x then l.find? (fun g => g.1 = t) else s.net.heldBy a t := by
  rw [Network.heldBy, hholding, Function.update_apply]
  split_ifs <;> rfl

theorem heldBy_taken {x y : PeerKey}
    (hholding : n.holding = Function.update s.net.holding x (s.net.holding x ++ [(task,y)]))
    (hnone : s.net.heldBy x task = none) (a : PeerKey) (t : ℕ) :
    n.heldBy a t = if a = x ∧ t = task then some (task,y) else s.net.heldBy a t := by
  rw [heldBy_update hholding, List.find?_append]
  by_cases ha : a = x
  · subst ha
    by_cases ht : t = task
    · subst ht
      rw [if_pos rfl, if_pos ⟨rfl,rfl⟩, show (s.net.holding a).find? _ = none from hnone]
      simp
    · simp [ht, Ne.symm ht, Network.heldBy]
  · simp [ha]

theorem Inv.credit (h : Inv s) (x : PeerKey) (task : ℕ) : Inv (s.credit p x task) := by
  rw [Link.credit]
  cases hcall : s.calls x task with
  | none => exact h
  | some c =>
    dsimp only
    split_ifs with hwait
    · exact h
    · push Not at hwait
      obtain ⟨-,hbuf,hacquire⟩ := hwait
      have hnone : s.net.heldBy x task = none := by
        rw [h.held, hcall]
        exact if_neg hacquire
      have htransit := @inTransit_credit p s.net x c.peer task
      rcases @holding_credit p s.net x c.peer task with hholding | hholding
      · have hnone' : (s.net.credit p x c.peer task).heldBy x task = none := by
          rw [Network.heldBy, hholding]
          exact hnone
        rw [hnone']
        exact h.net htransit hholding
      · have hheld := heldBy_taken hholding hnone
        rw [hheld, if_pos ⟨rfl,rfl⟩]
        refine h.step rfl (fun a b => (h.order a b).trans (congrArg _ (htransit a b).symm))
          (fun _ _ _ _ => rfl) (h.calls x task c hcall).1 (fun _ => hbuf) hheld (fun a => ?_)
        show (((s.net.credit p x c.peer task).holding a).map Prod.fst).Nodup
        rw [hholding, Function.update_apply]
        split_ifs with ha
        · rw [List.map_append, List.nodup_append]
          refine ⟨h.nodup x,by simp,fun t ht t' ht' => ?_⟩
          obtain ⟨g,hg,rfl⟩ := List.mem_map.mp ht
          rw [show t' = task by simpa using ht']
          simpa using List.find?_eq_none.mp hnone g hg
        · exact h.nodup a

section Released

variable {n : Network} {x y : PeerKey} {task : ℕ}
  (hholding : n.holding = Function.update s.net.holding x ((s.net.holding x).erase (task,y)))

include hholding

theorem heldBy_released (h : Inv s) (hheld : s.net.heldBy x task = some (task,y)) (a : PeerKey)
    (t : ℕ) : n.heldBy a t = if a = x ∧ t = task then none else s.net.heldBy a t := by
  rw [heldBy_update hholding, find?_erase_key (h.nodup x) (List.mem_of_find?_eq_some hheld)]
  by_cases ha : a = x
  · subst ha
    by_cases ht : t = task
    · simp [ht]
    · simp [ht, Network.heldBy]
  · simp [ha]

theorem nodup_released (h : Inv s) (a : PeerKey) : ((n.holding a).map Prod.fst).Nodup := by
  rw [hholding, Function.update_apply]
  split_ifs
  · exact (h.nodup x).sublist (List.erase_sublist.map Prod.fst)
  · exact h.nodup a

end Released

theorem Inv.buffer (h : Inv s) {g : Grant}
    (hcall : s.calls x task = some c) (hg : s.bufferOf x c = some g) :
    s.net.heldBy x task = some (task,c.peer) ∧ c.buf ≠ [] := by
  obtain ⟨k,hk,-⟩ := Option.bind_eq_some_iff.mp hg
  have hsome : c.acquire.isSome = true := by rw [hk]; rfl
  refine ⟨?_,(h.calls x task c hcall).2 hsome⟩
  rw [h.held, hcall]
  exact if_pos hsome

theorem Inv.post (h : Inv s) (x : PeerKey) (task : ℕ) : Inv (s.post x task) := by
  rw [Link.post]
  cases hcall : s.calls x task with
  | none => exact h
  | some c =>
    dsimp only
    cases hg : s.bufferOf x c with
    | none => exact h
    | some g =>
      obtain ⟨hheld,hbuf⟩ := h.buffer hcall hg
      have hholding : (s.net.post x task (c.buf.take bufSize)).holding =
          Function.update s.net.holding x ((s.net.holding x).erase (task,c.peer)) := by
        rw [Network.post, hheld]
        rfl
      refine h.step rfl (fun a b => ?_) (fun a b t hne => ?_) ?_ (fun hsome => by cases hsome)
        (heldBy_released hholding h hheld) (nodup_released hholding h)
      · show (put s.posted x c.peer _ a b).map Prod.snd =
          handedFrom s a b ++ inTransit (s.net.post x task (c.buf.take bufSize)) a b
        rw [inTransit_post hheld, put, ← List.append_assoc, ← h.order]
        split_ifs with heq
        · rw [heq.1, heq.2, List.map_append]
          rfl
        · rw [List.append_nil]
      · show ((put s.posted x c.peer _ a b).filter _).map Prod.snd = _
        rw [put]
        split_ifs with heq
        · obtain ⟨rfl,rfl⟩ := heq
          have ht : task ≠ t := fun ht => hne ⟨rfl,ht.symm⟩
          simp [postedBy, ht]
        · rfl
      · show ((put s.posted x c.peer _ x c.peer).filter _).map Prod.snd ++ _ = pieces c.bytes
        rw [← (h.calls x task c hcall).1, pieces_cons hbuf, put, if_pos ⟨rfl,rfl⟩]
        simp [postedBy]

theorem Inv.failedPost (h : Inv s) (x : PeerKey) (task : ℕ) : Inv (s.failedPost x task) := by
  rw [Link.failedPost]
  cases hcall : s.calls x task with
  | none => exact h
  | some c =>
    dsimp only
    cases hg : s.bufferOf x c with
    | none => exact h
    | some g =>
      obtain ⟨hheld,hbuf⟩ := h.buffer hcall hg
      have hholding : (s.net.failedPost x task).holding =
          Function.update s.net.holding x ((s.net.holding x).erase (task,c.peer)) := by
        rw [Network.failedPost, hheld]
        dsimp only
        cases s.net.perPeer x c.peer <;> rfl
      refine h.step rfl (fun a b => ?_) (fun _ _ _ _ => rfl) (h.calls x task c hcall).1
        (fun hsome => by cases hsome) (heldBy_released hholding h hheld) (nodup_released hholding h)
      exact (h.order a b).trans (congrArg _ (inTransit_failedPost x task a b).symm)

theorem Inv.drain (h : Inv s) (y : PeerKey) (o : Outcome) : Inv (s.drain p y o) := by
  have hnet := (@drain_frame p s.net y o).1
  refine ⟨fun a b => ?_,h.calls,h.fresh,fun a t => ?_,fun a => ?_⟩
  · show (s.posted a b).map Prod.snd = ((Function.update s.handed y
      (s.handed y ++ (s.net.queue y).head?.toList) b).filter _).map Prod.snd ++
        inTransit (s.net.drain p y o) a b
    rw [h.order, @inTransit_drain p s.net y o a b, Function.update_apply, ← List.append_assoc]
    split_ifs with hb
    · rw [hb, List.filter_append, List.map_append]
      rfl
    · rw [List.append_nil]
      rfl
  · show ((s.net.drain p y o).holding a).find? _ = _
    rw [hnet]
    exact h.held a t
  · show (((s.net.drain p y o).holding a).map Prod.fst).Nodup
    rw [hnet]
    exact h.nodup a

theorem Inv.next (h : Inv s) (e : Event) : Inv (s.next p e) := by
  cases e with
  | call x task peer bytes => exact h.call x task peer bytes
  | credit x task => exact h.credit x task
  | wake x caller => exact h.sock x _
  | post x task => exact h.post x task
  | failedPost x task => exact h.failedPost x task
  | completion x => exact h.sock x _
  | deliver x y => exact h.net (inTransit_deliver x y) (holding_deliver x y)
  | drain y o => exact h.drain y o
  | request x id peer => exact h.net (fun _ _ => rfl) rfl
  | timeout x id => exact h.net (fun _ _ => rfl) rfl
  | resetPeer x y => exact h.net (fun _ _ => rfl) rfl

end Steps

open Lib.GuardedRuns

section Runs

variable {p : Setup} {s : Link} {x : PeerKey} {task : ℕ} {c : Call}

theorem zip_take (l : List (ℕ × Bytes)) (k : ℕ) :
    (l.map Prod.fst).zip ((l.take k).map Prod.snd) = l.take k := by
  induction l generalizing k with
  | nil => simp
  | cons m l ih =>
    cases k with
    | zero => rfl
    | succ k => exact congrArg (List.cons m) (ih k)

theorem Inv.handedOf_eq (h : Inv s) (y : PeerKey) : handedOf s x y task =
    (((s.posted x y).take (handedFrom s x y).length).filter (fun m => m.1 = task)).map
      Prod.snd := by
  have hpairs : ((s.posted x y).map Prod.fst).zip (handedFrom s x y) =
      (s.posted x y).take (handedFrom s x y).length := by
    have hfirst : handedFrom s x y =
        ((s.posted x y).take (handedFrom s x y).length).map Prod.snd := by
      rw [List.map_take, h.order, List.take_left]
    exact (congrArg _ hfirst).trans (zip_take _ _)
  rw [handedOf, hpairs]

theorem Inv.handed_pieces (h : Inv s) (hcall : s.calls x task = some c) (hdone : c.buf = [])
    (hdelivered : Delivered s x c.peer task) : handedOf s x c.peer task = pieces c.bytes := by
  have hpieces := (h.calls x task c hcall).1
  have hrest : ((s.posted x c.peer).drop (handedFrom s x c.peer).length).filter
      (fun m => m.1 = task) = [] := by
    rw [List.filter_eq_nil_iff]
    exact fun m hm => by simpa using hdelivered m hm
  rw [hdone, pieces_nil, List.append_nil] at hpieces
  rw [h.handedOf_eq, ← hpieces, postedBy]
  conv_rhs => rw [← List.take_append_drop (handedFrom s x c.peer).length (s.posted x c.peer)]
  rw [List.filter_append, hrest, List.append_nil]

theorem inv_after (p : Setup) (events : List Event) : Inv (after (Link.next p) .new events) :=
  after_invariant Inv (fun _ e h => h.next e) inv_new events

end Runs

section Delivery

variable {p : Setup} {s : Link} {x y : PeerKey} {o : Outcome}

theorem after_delivers (k : ℕ) (hk : k = (s.net.wire x y).length) :
    (after (Link.next p) s (List.replicate k (.deliver x y))).net.wire x y = [] ∧
      (after (Link.next p) s (List.replicate k (.deliver x y))).calls = s.calls := by
  induction k generalizing s with
  | zero => exact ⟨List.length_eq_zero_iff.mp hk.symm,rfl⟩
  | succ k ih =>
    have hlen : k = ((s.net.deliver x y).wire x y).length := by
      rw [wire_deliver, List.length_tail, ← hk]
      rfl
    exact @ih { s with net := s.net.deliver x y } hlen

theorem after_drains (k : ℕ) (hk : k = (s.net.queue y).length) :
    (inTransit (after (Link.next p) s (List.replicate k (.drain y o))).net x y).length +
        ((s.net.queue y).filter (fun m => m.1 = x)).length = (inTransit s.net x y).length ∧
      (after (Link.next p) s (List.replicate k (.drain y o))).calls = s.calls := by
  induction k generalizing s with
  | zero =>
    rw [List.length_eq_zero_iff.mp hk.symm]
    exact ⟨rfl,rfl⟩
  | succ k ih =>
    have hqueue := (@drain_frame p s.net y o).2
    have hlen : k = ((s.net.drain p y o).queue y).length := by
      rw [hqueue, List.length_tail, ← hk]
      rfl
    obtain ⟨hrest,hcalls⟩ := @ih (s.drain p y o) hlen
    refine ⟨?_,hcalls⟩
    have hhead := congrArg List.length (@inTransit_drain p s.net y o x y)
    have htail : (s.drain p y o).net.queue y = (s.net.queue y).tail := hqueue
    rw [htail] at hrest
    rw [if_pos rfl, List.length_append, List.length_map] at hhead
    have hsplit : ((s.net.queue y).filter (fun m => m.1 = x)).length =
        ((s.net.queue y).head?.toList.filter (fun m => m.1 = x)).length +
          ((s.net.queue y).tail.filter (fun m => m.1 = x)).length := by
      cases s.net.queue y with
      | nil => rfl
      | cons m rest => rw [← List.length_append, ← List.filter_append]; rfl
    rw [hsplit, hhead]
    show (inTransit (after (Link.next p) (s.drain p y o) (List.replicate k (.drain y o))).net
      x y).length + _ = _ + (inTransit (s.drain p y o).net x y).length
    omega

end Delivery

def left : PeerKey := ⟨0,0⟩

def right : PeerKey := ⟨1,0⟩

def sampleSetup : Setup := ⟨4,4,fun _ => none,fun _ _ => true⟩

/-- A call with enough passes for two sends, and the delivery of both. -/
def sampleRun (bytes : Bytes) : List Event :=
  [.call left 0 right bytes,.credit left 0,.post left 0,.credit left 0,.post left 0,
    .deliver left right,.deliver left right,.drain right ⟨true,true⟩,.drain right ⟨true,true⟩]

def sampleEnd (bytes : Bytes) : Link := after (Link.next sampleSetup) .new (sampleRun bytes)

def longBytes : Bytes := List.replicate (bufSize+1) 0

end Openlake.RdmaCalls
