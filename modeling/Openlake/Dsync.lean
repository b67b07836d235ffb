import Openlake.Lib.Protocol
import Openlake.LockServer
import Openlake.Types

/-!
# The distributed lock protocol

Attempts of any number of clients, one uid each, talk to `n` lock servers over
a network that delays, reorders and loses packets but does not duplicate them.
An attempt asks every peer, waits until each call has an answer or has failed,
and returns a guard on a majority. A guard is refreshed in rounds and released
to every peer when it is dropped or lost. Each peer has its own clock.

`log` and `lapsed` are histories that no transition reads: the grants and
acquisitions so far, newest first, and the leases that ran past the validity
window. A lease of an empty window lapses as it is granted.
-/

set_option autoImplicit false

namespace Openlake.Dsync
open LockServer Lib.Protocol

inductive Answer where
  | yes | no | offline
  deriving DecidableEq, Repr

def answer (ok : Bool) : Answer := if ok then .yes else .no

inductive Phase where
  | waiting | failed | held | dropped
  deriving DecidableEq, Repr

structure Attempt (n : ℕ) where
  resource : String
  phase : Phase := .waiting
  votes : Fin n → Option Answer := fun _ => none
  lost : Bool := false
  rounds : ℕ := 0
  round : Option (Fin n → Option Answer) := none

inductive Body where
  | acquire
  | acquired (ok : Bool)
  | refresh (round : ℕ)
  | refreshed (round : ℕ) (ok : Bool)
  | release
  deriving DecidableEq, Repr

structure Packet (n : ℕ) where
  peer : Fin n
  uid : String
  resource : String
  body : Body
  deriving DecidableEq

inductive Event (n : ℕ) where
  | granted (peer : Fin n) (uid resource : String)
  | acquired (uid : String)
  deriving DecidableEq

structure State (n : ℕ) where
  table : Fin n → Locks
  clock : Fin n → ℕ
  attempts : String → Option (Attempt n)
  net : List (Packet n)
  log : List (Event n)
  lapsed : Fin n → String → Prop

variable {n : ℕ}

def initial (validity : ℕ) : State n :=
  { table := fun _ _ => none, clock := fun _ => 0, attempts := fun _ => none, net := [], log := [],
    lapsed := fun _ _ => validity = 0 }

def quorum (n : ℕ) : ℕ := majority n

def tolerance (n : ℕ) : ℕ := n-quorum n

def setOnce (f : Fin n → Option Answer) (p : Fin n) (a : Answer) : Fin n → Option Answer :=
  if f p = none then Function.update f p (some a) else f

def answersOf (f : Fin n → Option Answer) (a : Answer) : Finset (Fin n) :=
  Finset.univ.filter (fun p => f p = some a)

def Attempt.vote (a : Attempt n) (p : Fin n) (x : Answer) : Attempt n :=
  if a.phase = .waiting then { a with votes := setOnce a.votes p x } else a

def Attempt.refreshAnswer (a : Attempt n) (k : ℕ) (p : Fin n) (x : Answer) : Attempt n :=
  if k = a.rounds then { a with round := a.round.map (fun g => setOnce g p x) } else a

def Attempt.receive (a : Attempt n) (p : Fin n) : Body → Attempt n
  | .acquired ok => a.vote p (answer ok)
  | .refreshed k ok => a.refreshAnswer k p (answer ok)
  | _ => a

def toPeers (ps : List (Fin n)) (uid resource : String) (body : Body) : List (Packet n) :=
  ps.map (fun p => ⟨p,uid,resource,body⟩)

def Attempt.decide (a : Attempt n) : Attempt n :=
  if quorum n ≤ (answersOf a.votes .yes).card then { a with phase := .held }
  else { a with phase := .failed }

def Attempt.strayReleases (a : Attempt n) (uid : String) : List (Packet n) :=
  if quorum n ≤ (answersOf a.votes .yes).card then []
  else toPeers ((List.finRange n).filter (fun p => a.votes p = some .yes)) uid a.resource .release

def Attempt.acquisition (a : Attempt n) (uid : String) : List (Event n) :=
  if quorum n ≤ (answersOf a.votes .yes).card then [.acquired uid] else []

def Attempt.startRound (a : Attempt n) : Attempt n :=
  { a with rounds := a.rounds+1, round := some (fun _ => none) }

def quorumLost (g : Fin n → Option Answer) : Bool := tolerance n < (answersOf g .no).card

def Attempt.finishRound (a : Attempt n) (g : Fin n → Option Answer) : Attempt n :=
  { a with round := none, lost := a.lost || (a.phase = .held && quorumLost g) }

def Attempt.lossReleases (a : Attempt n) (uid : String) (g : Fin n → Option Answer) :
    List (Packet n) :=
  if a.phase = .held && quorumLost g then toPeers (List.finRange n) uid a.resource .release else []

def serve (validity now : ℕ) (locks : Locks) (uid resource : String) :
    Body → Locks × Option Body
  | .acquire =>
    let r := LockServer.acquire validity now locks resource uid
    (r.2,some (.acquired r.1))
  | .refresh k =>
    let r := LockServer.refresh now locks resource uid
    (r.2,some (.refreshed k r.1))
  | .release => (LockServer.release locks resource uid,none)
  | _ => (locks,none)

def Body.isRequest : Body → Bool
  | .acquire | .refresh _ | .release => true
  | _ => false

def grantEvent (p : Fin n) (uid resource : String) : Option Body → List (Event n)
  | some (.acquired true) => [.granted p uid resource]
  | _ => []

def State.setAttempt (s : State n) (u : String) (a : Attempt n) (out : List (Packet n))
    (events : List (Event n)) : State n :=
  { s with attempts := Function.update s.attempts u (some a), net := out ++ s.net,
           log := events ++ s.log }

def State.served (s : State n) (validity : ℕ) (k : Packet n) : State n :=
  let r := serve validity (s.clock k.peer) (s.table k.peer) k.uid k.resource k.body
  { s with table := Function.update s.table k.peer r.1,
           net := (r.2.toList.map (fun b => { k with body := b })) ++ s.net.erase k,
           log := grantEvent k.peer k.uid k.resource r.2 ++ s.log }

def State.tick (s : State n) (validity : ℕ) (p : Fin n) (now : ℕ) : State n :=
  { s with clock := Function.update s.clock p now,
           lapsed := fun q u => s.lapsed q u ∨
             (q = p ∧ ∃ r e, s.table p r = some e ∧ e.uid = u ∧ stale validity now e) }

def State.sweep (s : State n) (validity : ℕ) (p : Fin n) : State n :=
  { s with table := Function.update s.table p (expireOld validity (s.clock p) (s.table p)) }

inductive Step (validity : ℕ) : State n → State n → Prop
  | start (s : State n) (u r : String) (hu : s.attempts u = none) :
      Step validity s (s.setAttempt u { resource := r } (toPeers (List.finRange n) u r .acquire) [])
  | serve (s : State n) (k : Packet n) (hk : k ∈ s.net) (hreq : k.body.isRequest) :
      Step validity s (s.served validity k)
  | reply (s : State n) (k : Packet n) (a : Attempt n) (hk : k ∈ s.net)
      (hreq : k.body.isRequest = false) (ha : s.attempts k.uid = some a) :
      Step validity s
        ({ s with net := s.net.erase k }.setAttempt k.uid (a.receive k.peer k.body) [] [])
  | voteTimeout (s : State n) (u : String) (a : Attempt n) (p : Fin n)
      (ha : s.attempts u = some a) :
      Step validity s (s.setAttempt u (a.vote p .offline) [] [])
  | refreshTimeout (s : State n) (u : String) (a : Attempt n) (p : Fin n)
      (ha : s.attempts u = some a) :
      Step validity s (s.setAttempt u (a.refreshAnswer a.rounds p .offline) [] [])
  | decide (s : State n) (u : String) (a : Attempt n) (ha : s.attempts u = some a)
      (hw : a.phase = .waiting) (hall : ∀ p, a.votes p ≠ none) :
      Step validity s (s.setAttempt u a.decide (a.strayReleases u) (a.acquisition u))
  | drop (s : State n) (u : String) (a : Attempt n) (ha : s.attempts u = some a)
      (hh : a.phase = .held) :
      Step validity s (s.setAttempt u { a with phase := .dropped }
        (toPeers (List.finRange n) u a.resource .release) [])
  | startRound (s : State n) (u : String) (a : Attempt n) (ha : s.attempts u = some a)
      (hh : a.phase = .held) (hl : a.lost = false) (hr : a.round = none) :
      Step validity s (s.setAttempt u a.startRound
        (toPeers (List.finRange n) u a.resource (.refresh (a.rounds+1))) [])
  | finishRound (s : State n) (u : String) (a : Attempt n) (g : Fin n → Option Answer)
      (ha : s.attempts u = some a) (hr : a.round = some g) (hall : ∀ p, g p ≠ none) :
      Step validity s (s.setAttempt u (a.finishRound g) (a.lossReleases u g) [])
  | sweep (s : State n) (p : Fin n) : Step validity s (s.sweep validity p)
  | tick (s : State n) (p : Fin n) (now : ℕ) (hnow : s.clock p ≤ now) :
      Step validity s (s.tick validity p now)
  | lose (s : State n) (k : Packet n) (hk : k ∈ s.net) :
      Step validity s { s with net := s.net.erase k }

def Run (validity : ℕ) : State n → Prop := Reachable (fun s => s = initial validity) (Step validity)

def Guarded (s : State n) (u resource : String) : Prop :=
  ∃ a, s.attempts u = some a ∧ a.phase = .held ∧ a.resource = resource

def check (a : Attempt n) : Except Types.StorageError Unit :=
  if a.lost then .error (.lockLost a.resource) else .ok ()

end Openlake.Dsync
