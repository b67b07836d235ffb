import Openlake.Lib.GuardedRuns
import Openlake.Lib.Tally
import Openlake.VersionIds

/-!
# Cluster identity on the disks

Each disk carries the deployment id of its cluster. At boot a node reads the
format of every disk, its own first, and decides: the seed formats a cluster
where every disk answers that it has none; a quorum of formatted disks gives the
id, provided that the node's own disks agree; otherwise it waits and reads again
until its time is over. The order of the map of counts, the id that is generated
and the errors of reads are inputs.

Every node may boot, read one disk, decide, format one disk or crash, in any
order, and a write may fail with or without effect. `written` logs the ids that
ever reached a disk, `returned` the ids that some call returned. Only the seed
writes, and only after every disk has told it that it has no format, so there is
never a second id. A call while no other one runs is what the actions of its node
come to.
-/

set_option autoImplicit false

namespace Openlake.Format
open Openlake.Types VersionIds Lib.Tally

abbrev NodeId := ℕ

structure FormatJson where
  version : ℕ
  format : String
  id : Uuid
  setDriveCount : ℕ
  thisDisk : ℕ
  deriving DecidableEq

inductive FormatError where
  | timeout
  | quorumDisagreement
  | localDiskMissingFormat
  | localDiskWrongDeploymentId (own cluster : Uuid)
  | io (e : IoError)
  deriving DecidableEq

abbrev FormatRead := Except IoError (Option FormatJson)

def okSome : FormatRead → Option FormatJson
  | .ok (some f) => some f
  | _ => none

def okNone : FormatRead → Bool
  | .ok none => true
  | _ => false

def formatted (reads : List FormatRead) : ℕ := reads.countP (fun r => (okSome r).isSome)

def allOkNone (reads : List FormatRead) : Bool := reads.all okNone

def voteMajority (order : IterOrder (Uuid × ℕ)) (locals peers : List FormatRead) :
    Except FormatError Uuid :=
  let counts := tally FormatJson.id countStep ((locals ++ peers).filterMap okSome) []
  let totalFormatted := (counts.map Prod.snd).sum
  let majority := totalFormatted/2+1
  match (order.arrange counts).find? (fun c => majority ≤ c.2) with
  | some c => .ok c.1
  | none => .error .quorumDisagreement

inductive Verdict where
  | generate
  | done (result : Except FormatError Uuid)
  | wait

/-- What one pass over the disks comes to. -/
def verdict (order : IterOrder (Uuid × ℕ)) (amSeed : Bool) (locals peers : List FormatRead) :
    Verdict :=
  let quorum := (locals.length+peers.length)/2+1
  let found := formatted (locals ++ peers)
  if found = 0 ∧ allOkNone locals ∧ allOkNone peers ∧ amSeed then .generate
  else if quorum ≤ found then
    if locals.any okNone then .done (.error .localDiskMissingFormat)
    else
      match voteMajority order locals peers with
      | .error e => .done (.error e)
      | .ok id =>
        match (locals.filterMap okSome).find? (fun f => f.id ≠ id) with
        | some f => .done (.error (.localDiskWrongDeploymentId f.id id))
        | none => .done (.ok id)
  else .wait

/-- The nodes in configuration order with their numbers of disks; a configuration has a disk. -/
structure Layout where
  nodes : List (NodeId × ℕ)
  setDriveCount : ℕ
  someDisk : 0 < (nodes.map Prod.snd).sum

namespace Layout

variable (L : Layout)

def owners : List NodeId := L.nodes.flatMap (fun n => List.replicate n.2 n.1)

def count : ℕ := L.owners.length

def seed : NodeId := ((L.nodes.map Prod.fst).min?).getD 0

def localDisks (n : NodeId) : List ℕ := (List.range L.count).filter (fun i => L.owners[i]? = some n)

def peerDisks (n : NodeId) : List ℕ := (List.range L.count).filter (fun i => L.owners[i]? ≠ some n)

/-- The order in which a node reads the disks, and the seed formats them. -/
def order (n : NodeId) : List ℕ := L.localDisks n ++ L.peerDisks n

def formatOf (id : Uuid) (i : ℕ) : FormatJson := ⟨1,"openlake",id,L.setDriveCount,i+1⟩

theorem order_perm (n : NodeId) : (L.order n).Perm (List.range L.count) := by
  simpa [order, localDisks, peerDisks] using
    List.filter_append_perm (fun i => L.owners[i]? = some n) (List.range L.count)

theorem mem_order (n : NodeId) (i : ℕ) : i ∈ L.order n ↔ i < L.count := by
  rw [(L.order_perm n).mem_iff, List.mem_range]

theorem length_order (n : NodeId) : (L.order n).length = L.count := by
  simpa using (L.order_perm n).length_eq

theorem count_pos : 0 < L.count := by
  simpa [count, owners, List.length_flatMap, Function.comp_def] using L.someDisk

end Layout

theorem formatted_eq_length (reads : List FormatRead) :
    formatted reads = (reads.filterMap okSome).length := by
  rw [formatted, List.length_filterMap_eq_countP]

theorem okSome_eq_some {r : FormatRead} {f : FormatJson} (h : okSome r = some f) : r = .ok (some f) := by
  rcases r with e | _ | g
  · cases h
  · cases h
  · cases h
    rfl

theorem exists_of_mem_tally {α κ : Type} [DecidableEq κ] {key : α → κ} {xs : List α} {e : κ × ℕ}
    (h : e ∈ tally key countStep xs []) : ∃ x ∈ xs, key x = e.1 := by
  obtain ⟨hcount,hpos⟩ := (mem_tally_count key xs e.1 e.2).mp h
  rw [hcount, List.count_pos_iff] at hpos
  exact List.mem_map.mp hpos

variable {locals peers : List FormatRead} {order : IterOrder (Uuid × ℕ)} {id : Uuid}

theorem mem_vote (h : voteMajority order locals peers = .ok id)
    : ∃ f, .ok (some f) ∈ locals ++ peers ∧ f.id = id := by
  simp only [voteMajority] at h
  split at h
  · rename_i c hc
    cases h
    have hmem := (order.mem_arrange _ _).mp (List.mem_of_find?_eq_some hc)
    obtain ⟨f,hf,hid⟩ := exists_of_mem_tally hmem
    obtain ⟨r,hr,hsome⟩ := List.mem_filterMap.mp hf
    exact ⟨f,okSome_eq_some hsome ▸ hr,hid⟩
  · cases h

variable {amSeed : Bool}

theorem verdict_generate (h : verdict order amSeed locals peers = .generate)
    : amSeed ∧ allOkNone (locals ++ peers) := by
  simp only [verdict] at h
  split_ifs at h with hnew hquorum hmissing
  · obtain ⟨_,hlocals,hpeers,hseed⟩ := hnew
    refine ⟨hseed,?_⟩
    rw [allOkNone, List.all_append, Bool.and_eq_true]
    exact ⟨hlocals,hpeers⟩
  · split at h
    · cases h
    · split at h <;> cases h

theorem verdict_ok (h : verdict order amSeed locals peers = .done (.ok id)) :
    ∃ f, .ok (some f) ∈ locals ++ peers ∧ f.id = id := by
  simp only [verdict] at h
  split_ifs at h with hnew hquorum hmissing
  · cases h
  · split at h
    · cases h
    · rename_i id' hvote
      split at h <;> cases h
      exact mem_vote hvote

theorem tally_same (fs : List FormatJson) (h : ∀ f ∈ fs, f.id = id) (n : ℕ) :
    tally FormatJson.id countStep fs [(id,n)] = [(id,n+fs.length)] := by
  induction fs generalizing n with
  | nil => rfl
  | cons f fs ih =>
    have hf : f.id = id := h f List.mem_cons_self
    rw [tally, entry, if_pos hf, countStep, Option.getD_some,
      ih (fun g hg => h g (List.mem_cons_of_mem _ hg)), List.length_cons]
    congr 2
    omega

theorem vote_same (order : IterOrder (Uuid × ℕ))
    (hsome : 0 < formatted (locals ++ peers))
    (h : ∀ f, .ok (some f) ∈ locals ++ peers → f.id = id) : voteMajority order locals peers = .ok id := by
  have hids : ∀ f ∈ (locals ++ peers).filterMap okSome, f.id = id := by
    intro f hf
    obtain ⟨r,hr,hr'⟩ := List.mem_filterMap.mp hf
    exact h f (okSome_eq_some hr' ▸ hr)
  rw [formatted_eq_length] at hsome
  rcases hfs : (locals ++ peers).filterMap okSome with _ | ⟨f,fs⟩
  · simp [hfs] at hsome
  · rw [hfs] at hids
    have hf : f.id = id := hids f List.mem_cons_self
    have htally : tally FormatJson.id countStep (f::fs) [] = [(id,1+fs.length)] := by
      rw [tally, entry, hf]
      exact tally_same fs (fun g hg => hids g (List.mem_cons_of_mem _ hg)) 1
    have harrange : order.arrange [(id,1+fs.length)] = [(id,1+fs.length)] :=
      List.perm_singleton.mp (order.perm _)
    have hmajority : (1+fs.length)/2 < 1+fs.length := by omega
    simp [voteMajority, hfs, htally, harrange, hmajority]

theorem verdict_agreed (hsome : ¬ allOkNone (locals ++ peers))
    (h : ∀ f, .ok f ∈ locals ++ peers → ∃ g, f = some g ∧ g.id = id) :
    verdict order amSeed locals peers =
      if (locals.length+peers.length)/2+1 ≤ formatted (locals ++ peers) then .done (.ok id)
      else .wait := by
  have hgenerate : ¬ (formatted (locals ++ peers) = 0 ∧ allOkNone locals ∧ allOkNone peers ∧ amSeed) := by
    rintro ⟨_,hlocals,hpeers,_⟩
    rw [allOkNone, List.all_append, Bool.and_eq_true] at hsome
    exact hsome ⟨hlocals,hpeers⟩
  have hmissing : ¬ locals.any okNone := by
    rw [List.any_eq_true]
    rintro ⟨r,hr,hnone⟩
    rcases r with e | _ | f
    · cases hnone
    · obtain ⟨g,hg,_⟩ := h none (List.mem_append_left _ hr)
      cases hg
    · cases hnone
  have hown : (locals.filterMap okSome).find? (fun f => f.id ≠ id) = none := by
    rw [List.find?_eq_none]
    intro f hf
    obtain ⟨r,hr,hsome⟩ := List.mem_filterMap.mp hf
    obtain ⟨g,hg,hid⟩ := h (some f) (List.mem_append_left _ (okSome_eq_some hsome ▸ hr))
    cases hg
    simp [hid]
  rw [verdict, if_neg hgenerate]
  split_ifs with hquorum
  · have hvote : voteMajority order locals peers = .ok id := by
      refine vote_same order (by omega) fun f hf => ?_
      obtain ⟨g,hg,hid⟩ := h (some f) hf
      cases hg
      exact hid
    simp only [hvote, hown]
  · rfl

open Lib.GuardedRuns

inductive Process where
  | polling (seen : List FormatRead)
  | writing (id : Uuid) (todo : List ℕ)

structure World where
  disks : ℕ → Option FormatJson
  processes : NodeId → Option Process
  written : List Uuid
  returned : List Uuid

def World.blank : World := ⟨fun _ => none,fun _ => none,[],[]⟩

inductive WriteOutcome where
  | done
  | failed (effect : Bool) (e : IoError)

inductive Action where
  | boot (n : NodeId)
  | read (n : NodeId) (fault : Option IoError)
  | decide (n : NodeId) (order : IterOrder (Uuid × ℕ)) (fresh : Uuid) (late : Bool)
  | write (n : NodeId) (outcome : WriteOutcome)
  | crash (n : NodeId)

section Steps

variable (L : Layout)

def World.set (w : World) (n : NodeId) (p : Option Process) : World :=
  { w with processes := Function.update w.processes n p }

def World.finish (w : World) (n : NodeId) : Except FormatError Uuid → World
  | .ok id => { w.set n none with returned := w.returned ++ [id] }
  | .error _ => w.set n none

def World.format (w : World) (id : Uuid) (i : ℕ) : World :=
  { w with disks := Function.update w.disks i (some (L.formatOf id i)), written := w.written ++ [id] }

def readDisk (disks : ℕ → Option FormatJson) (fault : Option IoError) (i : ℕ) : FormatRead :=
  match fault with
  | some e => .error e
  | none => .ok (disks i)

def World.decide (w : World) (n : NodeId) (order : IterOrder (Uuid × ℕ)) (fresh : Uuid) (late : Bool)
    (seen : List FormatRead) : World :=
  let own := (L.localDisks n).length
  match verdict order (n = L.seed) (seen.take own) (seen.drop own) with
  | .generate => w.set n (some (.writing fresh (L.order n)))
  | .done r => w.finish n r
  | .wait => if late then w.finish n (.error .timeout) else w.set n (some (.polling []))

def World.write (w : World) (n : NodeId) (id : Uuid) (i : ℕ) (todo : List ℕ) : WriteOutcome → World
  | .done =>
    if todo = [] then (w.format L id i).finish n (.ok id)
    else (w.format L id i).set n (some (.writing id todo))
  | .failed effect e => (if effect then w.format L id i else w).finish n (.error (.io e))

def World.next (w : World) : Action → World
  | .boot n => if w.processes n = none then w.set n (some (.polling [])) else w
  | .read n fault =>
    match w.processes n with
    | some (.polling seen) =>
      match (L.order n)[seen.length]? with
      | some i => w.set n (some (.polling (seen ++ [readDisk w.disks fault i])))
      | none => w
    | _ => w
  | .decide n order fresh late =>
    match w.processes n with
    | some (.polling seen) => if seen.length = L.count then w.decide L n order fresh late seen else w
    | _ => w
  | .write n outcome =>
    match w.processes n with
    | some (.writing id (i::todo)) => w.write L n id i todo outcome
    | _ => w
  | .crash n => w.set n none

end Steps

/-- One id has been written at most; whoever formats has it, and whoever has read a format has read
it. What the seed has found without format still is. -/
structure Single (L : Layout) (w : World) : Prop where
  writing : ∀ n id todo, w.processes n = some (.writing id todo) →
    n = L.seed ∧ (∀ i ∈ todo, i < L.count) ∧ ∀ x ∈ w.written, x = id
  seen : ∀ n seen, w.processes n = some (.polling seen) → ∀ f, Except.ok (some f) ∈ seen → f.id ∈ w.written
  absent : ∀ seen, w.processes L.seed = some (.polling seen) → ∀ j : ℕ, seen[j]? = some (.ok none) →
    ∀ i, (L.order L.seed)[j]? = some i → w.disks i = none
  stored : ∀ i f, w.disks i = some f → f.id ∈ w.written
  present : ∀ x ∈ w.written, ∃ i < L.count, w.disks i ≠ none
  agree : ∀ x ∈ w.written, ∀ y ∈ w.written, x = y
  returned : ∀ x ∈ w.returned, x ∈ w.written

theorem readDisk_ok {disks : ℕ → Option FormatJson} {fault : Option IoError} {i : ℕ}
    {f : Option FormatJson} (h : readDisk disks fault i = .ok f) : disks i = f := by
  cases fault with
  | none => exact Except.ok.inj h
  | some e => cases h

theorem blank_single (L : Layout) : Single L .blank := by
  constructor <;> simp [World.blank]

section Keep

variable {L : Layout} {w : World} (h : Single L w)

include h

variable {n : NodeId}

theorem Single.set {p : Option Process}
    (hwriting : ∀ id todo, p = some (.writing id todo) →
      n = L.seed ∧ (∀ i ∈ todo, i < L.count) ∧ ∀ x ∈ w.written, x = id)
    (hseen : ∀ seen, p = some (.polling seen) → (∀ f, Except.ok (some f) ∈ seen → f.id ∈ w.written) ∧
      (n = L.seed → ∀ j : ℕ, seen[j]? = some (.ok none) →
        ∀ i, (L.order L.seed)[j]? = some i → w.disks i = none)) : Single L (w.set n p) := by
  have hprocess (m : NodeId) (q : Process) (hq : (w.set n p).processes m = some q) :
      (m = n ∧ p = some q) ∨ w.processes m = some q := by
    by_cases hm : m = n
    · subst hm
      exact .inl ⟨rfl,by simpa [World.set] using hq⟩
    · exact .inr (by simpa [World.set, hm] using hq)
  refine ⟨fun m id todo hm => ?_,fun m seen hm => ?_,fun seen hm => ?_,h.stored,h.present,h.agree,
    h.returned⟩
  · rcases hprocess m _ hm with ⟨rfl,hp⟩ | hm
    · exact hwriting id todo hp
    · exact h.writing m id todo hm
  · rcases hprocess m _ hm with ⟨rfl,hp⟩ | hm
    · exact (hseen seen hp).1
    · exact h.seen m seen hm
  · rcases hprocess L.seed _ hm with ⟨rfl,hp⟩ | hm
    · exact (hseen seen hp).2 rfl
    · exact h.absent seen hm

theorem Single.stop (n : NodeId) : Single L (w.set n none) := h.set (by simp) (by simp)

theorem Single.finish {r : Except FormatError Uuid}
    (hr : ∀ id, r = .ok id → id ∈ w.written) : Single L (w.finish n r) := by
  have hstop := h.stop n
  cases r with
  | error e => exact hstop
  | ok id =>
    refine ⟨hstop.writing,hstop.seen,hstop.absent,hstop.stored,hstop.present,hstop.agree,?_⟩
    intro x hx
    rcases List.mem_append.mp hx with hx | hx
    · exact h.returned x hx
    · exact List.mem_singleton.mp hx ▸ hr id rfl

variable {i : ℕ} {todo : List ℕ} {id : Uuid}

theorem Single.format
    (hn : w.processes n = some (.writing id (i::todo))) : Single L (w.format L id i) := by
  obtain ⟨rfl,htodo,hid⟩ := h.writing n id (i::todo) hn
  have hwritten (x : Uuid) (hx : x ∈ w.written ++ [id]) : x = id := by
    rcases List.mem_append.mp hx with hx | hx
    · exact hid x hx
    · exact List.mem_singleton.mp hx
  refine ⟨fun m id' todo' hm => ?_,fun m seen hm f hf => ?_,fun seen hm => ?_,fun j f hj => ?_,
    fun x hx => ⟨i,htodo i (by simp),by simp [World.format]⟩,fun x hx y hy => ?_,fun x hx => ?_⟩
  · obtain ⟨rfl,htodo',hid'⟩ := h.writing m id' todo' hm
    refine ⟨rfl,htodo',?_⟩
    cases hn.symm.trans hm
    exact hwritten
  · exact List.mem_append_left _ (h.seen m seen hm f hf)
  · exact absurd (hn.symm.trans hm) (by simp)
  · by_cases hji : j = i
    · subst hji
      simp only [World.format, Function.update_self, Option.some.injEq] at hj
      subst hj
      simp [World.format, Layout.formatOf]
    · simp only [World.format, Function.update_of_ne hji] at hj
      exact List.mem_append_left _ (h.stored j f hj)
  · exact (hwritten x hx).trans (hwritten y hy).symm
  · exact List.mem_append_left _ (h.returned x hx)

theorem Single.write
    (hn : w.processes n = some (.writing id (i::todo))) (outcome : WriteOutcome) :
    Single L (w.write L n id i todo outcome) := by
  have hformat := h.format hn
  have hid : id ∈ (w.format L id i).written := by simp [World.format]
  cases outcome with
  | done =>
    rw [World.write]
    split_ifs
    · exact hformat.finish (by rintro _ ⟨⟩; exact hid)
    · refine hformat.set (fun id' todo' hp => ?_) (by simp)
      cases hp
      obtain ⟨rfl,htodo,hall⟩ := hformat.writing n id (i::todo) hn
      exact ⟨rfl,fun j hj => htodo j (List.mem_cons_of_mem _ hj),hall⟩
  | failed effect e =>
    rw [World.write]
    split_ifs
    · exact hformat.finish (by simp)
    · exact h.finish (by simp)

variable {seen : List FormatRead}

theorem Single.unwritten (hn : w.processes L.seed = some (.polling seen))
    (hlen : seen.length = L.count) (hnone : allOkNone seen) : w.written = [] := by
  rw [List.eq_nil_iff_forall_not_mem]
  intro x hx
  obtain ⟨i,hi,hdisk⟩ := h.present x hx
  obtain ⟨j,hj⟩ := List.getElem?_of_mem ((L.mem_order L.seed i).mpr hi)
  have hlt : j < seen.length := by
    rw [hlen, ← L.length_order L.seed]
    exact (List.getElem?_eq_some_iff.mp hj).1
  have hread : okNone seen[j] := List.all_eq_true.mp hnone _ (List.getElem_mem hlt)
  have hok : seen[j] = .ok none := by
    rcases hs : seen[j] with e | _ | f
    · simp [hs, okNone] at hread
    · rfl
    · simp [hs, okNone] at hread
  exact hdisk (h.absent seen hn j (by rw [List.getElem?_eq_getElem hlt, hok]) i hj)

theorem Single.decide (order : IterOrder (Uuid × ℕ))
    (fresh : Uuid) (late : Bool) (hn : w.processes n = some (.polling seen))
    (hlen : seen.length = L.count) : Single L (w.decide L n order fresh late seen) := by
  have hall : seen.take (L.localDisks n).length ++ seen.drop (L.localDisks n).length = seen :=
    List.take_append_drop _ _
  rw [World.decide]
  rcases hv : verdict order (n = L.seed) (seen.take (L.localDisks n).length)
    (seen.drop (L.localDisks n).length) with _ | r | _
  · obtain ⟨hseed,hnone⟩ := verdict_generate hv
    rw [hall] at hnone
    obtain rfl : n = L.seed := of_decide_eq_true hseed
    have hwritten := h.unwritten hn hlen hnone
    refine h.set (fun id todo hp => ?_) (by simp)
    cases hp
    exact ⟨rfl,fun i hi => (L.mem_order _ i).mp hi,by simp [hwritten]⟩
  · refine h.finish fun id hid => ?_
    obtain ⟨f,hf,rfl⟩ := verdict_ok (hid ▸ hv)
    rw [hall] at hf
    exact h.seen n seen hn f hf
  · show Single L (if late then _ else _)
    split_ifs
    · exact h.finish (by simp)
    · refine h.set (by simp) fun seen' hseen => ?_
      cases hseen
      simp

theorem Single.read (fault : Option IoError)
    (hn : w.processes n = some (.polling seen)) (hi : (L.order n)[seen.length]? = some i) :
    Single L (w.set n (some (.polling (seen ++ [readDisk w.disks fault i])))) := by
  refine h.set (by simp) fun seen' hseen => ?_
  cases hseen
  refine ⟨fun f hf => ?_,fun hseed j hj i' hi' => ?_⟩
  · rcases List.mem_append.mp hf with hf | hf
    · exact h.seen n seen hn f hf
    · exact h.stored i f (readDisk_ok (List.mem_singleton.mp hf).symm)
  · subst hseed
    rcases Nat.lt_trichotomy j seen.length with hlt | rfl | hgt
    · rw [List.getElem?_append_left hlt] at hj
      exact h.absent seen hn j hj i' hi'
    · rw [List.getElem?_concat_length] at hj
      cases hi.symm.trans hi'
      exact readDisk_ok (Option.some.inj hj)
    · rw [List.getElem?_eq_none (by simp; omega)] at hj
      cases hj

theorem Single.next (a : Action) : Single L (w.next L a) := by
  cases a with
  | boot n =>
    rw [World.next]
    split_ifs
    · refine h.set (by simp) fun seen hseen => ?_
      cases hseen
      simp
    · exact h
  | read n fault =>
    simp only [World.next]
    split
    · rename_i seen hn
      split
      · rename_i i hi
        exact h.read fault hn hi
      · exact h
    · exact h
  | decide n order fresh late =>
    simp only [World.next]
    split
    · rename_i seen hn
      split_ifs with hlen
      · exact h.decide order fresh late hn hlen
      · exact h
    · exact h
  | write n outcome =>
    simp only [World.next]
    split
    · rename_i id i todo hn
      exact h.write hn outcome
    · exact h
  | crash n => exact h.stop n

end Keep

/-- Whatever the nodes do from blank disks on, every disk that has a format and every call that has
returned an id has the same one. -/
theorem cluster_single_id (L : Layout) (actions : List Action) :
    ∃ id, (∀ i f, (after (World.next L) .blank actions).disks i = some f → f.id = id) ∧
      (∀ x ∈ (after (World.next L) .blank actions).written, x = id) ∧
      ∀ x ∈ (after (World.next L) .blank actions).returned, x = id := by
  have h : Single L (after (World.next L) .blank actions) :=
    after_invariant (Single L) (fun w a hw => hw.next a) (blank_single L) actions
  by_cases hsome : ∃ id, id ∈ (after (World.next L) .blank actions).written
  · obtain ⟨id,hid⟩ := hsome
    exact ⟨id,fun i f hf => h.agree _ (h.stored i f hf) id hid,fun x hx => h.agree x hx id hid,
      fun x hx => h.agree x (h.returned x hx) id hid⟩
  · push Not at hsome
    exact ⟨Vector.replicate 16 0,fun i f hf => absurd (h.stored i f hf) (hsome _),
      fun x hx => absurd hx (hsome x),fun x hx => absurd (h.returned x hx) (hsome x)⟩

abbrev Disks := ℕ → Option FormatJson

structure Poll where
  faults : ℕ → Option IoError
  order : IterOrder (Uuid × ℕ)
  fresh : Uuid

def readAll (disks : Disks) (p : Poll) (is : List ℕ) : List FormatRead :=
  is.map (fun i => readDisk disks (p.faults i) i)

section Calls

variable (L : Layout)

def writeFormat (id : Uuid) (i : ℕ) (disks : Disks) : Disks :=
  Function.update disks i (some (L.formatOf id i))

def writeAllDisks (id : Uuid) (outcome : ℕ → WriteOutcome) :
    List ℕ → Disks → Except FormatError Unit × Disks
  | [],disks => (.ok (),disks)
  | i::todo,disks =>
    match outcome i with
    | .done => writeAllDisks id outcome todo (writeFormat L id i disks)
    | .failed effect e => (.error (.io e),if effect then writeFormat L id i disks else disks)

def Poll.verdict (disks : Disks) (n : NodeId) (p : Poll) : Verdict :=
  Format.verdict p.order (n = L.seed) (readAll disks p (L.localDisks n))
    (readAll disks p (L.peerDisks n))

/-- The passes that a call makes before its deadline, one at least. -/
def bootstrapFormat (n : NodeId) (outcome : ℕ → WriteOutcome) (disks : Disks) :
    List Poll → Except FormatError Uuid × Disks
  | [] => (.error .timeout,disks)
  | p::polls =>
    match p.verdict L disks n with
    | .generate =>
      let formatted := writeAllDisks L p.fresh outcome (L.order n) disks
      (formatted.1.map (fun _ => p.fresh),formatted.2)
    | .done r => (r,disks)
    | .wait => bootstrapFormat n outcome disks polls

def pollActions (n : NodeId) : List Poll → List Action
  | [] => []
  | p::polls =>
    (L.order n).map (fun i => .read n (p.faults i)) ++
      .decide n p.order p.fresh polls.isEmpty :: pollActions n polls

def call (n : NodeId) (outcome : ℕ → WriteOutcome) (polls : List Poll) : List Action :=
  .boot n :: pollActions L n polls ++ (L.order n).map (fun i => Action.write n (outcome i))

end Calls

section Runs

variable {L : Layout} {w : World} {n : NodeId}

theorem set_self {p : Option Process} (hn : w.processes n = p) : w.set n p = w := by
  rw [World.set, ← hn, Function.update_eq_self]

theorem set_set (p q : Option Process) : (w.set n p).set n q = w.set n q := by
  simp only [World.set, Function.update_idem]

theorem reads_run (p : Poll) {seen : List FormatRead} {rest : List ℕ}
    (hn : w.processes n = some (.polling seen)) (hrest : (L.order n).drop seen.length = rest) :
    after (World.next L) w (rest.map (fun i => .read n (p.faults i))) =
      w.set n (some (.polling (seen ++ readAll w.disks p rest))) := by
  induction rest generalizing w seen with
  | nil =>
    simp [after, readAll, set_self hn]
  | cons i rest ih =>
    have hi : (L.order n)[seen.length]? = some i := by
      rw [← List.head?_drop, hrest, List.head?_cons]
    have hnext : w.next L (.read n (p.faults i)) =
        w.set n (some (.polling (seen ++ [readDisk w.disks (p.faults i) i]))) := by
      simp [World.next, hn, hi]
    have hdrop : (L.order n).drop (seen ++ [readDisk w.disks (p.faults i) i]).length = rest := by
      rw [List.length_append, List.length_singleton, ← List.drop_drop, hrest, List.drop_one,
        List.tail_cons]
    show after (World.next L) (w.next L (.read n (p.faults i))) _ = _
    rw [hnext, ih (by simp [World.set]) hdrop, set_set]
    simp [readAll, World.set]

theorem polls_idle (polls : List Poll) (hn : ∀ seen, w.processes n ≠ some (.polling seen)) :
    after (World.next L) w (pollActions L n polls) = w := by
  apply after_fixed
  intro a ha
  induction polls with
  | nil => simp [pollActions] at ha
  | cons p polls ih =>
    rw [pollActions, List.mem_append, List.mem_cons] at ha
    rcases ha with ha | rfl | ha
    · obtain ⟨i,_,rfl⟩ := List.mem_map.mp ha
      simp only [World.next]
    · simp only [World.next]
    · exact ih ha

variable (outcome : ℕ → WriteOutcome)

theorem writes_idle (is : List ℕ) (hn : w.processes n = none) :
    after (World.next L) w (is.map (fun i => Action.write n (outcome i))) = w := by
  apply after_fixed
  intro a ha
  obtain ⟨i,_,rfl⟩ := List.mem_map.mp ha
  simp [World.next, hn]

/-- `w` after a call on `n` that returned `r` and left `disks`. -/
def Concludes (w : World) (n : NodeId) (r : Except FormatError Uuid × Disks) (w' : World) : Prop :=
  w'.disks = r.2 ∧ w'.processes = Function.update w.processes n none ∧
    w'.returned = w.returned ++ (match r.1 with | .ok id => [id] | .error _ => [])

theorem writes_run {id : Uuid} {i : ℕ} {todo : List ℕ}
    (hn : w.processes n = some (.writing id (i::todo))) :
    Concludes w n ((writeAllDisks L id outcome (i::todo) w.disks).1.map (fun _ => id),
        (writeAllDisks L id outcome (i::todo) w.disks).2)
      (after (World.next L) w ((i::todo).map (fun i => Action.write n (outcome i)))) := by
  induction todo generalizing w i with
  | nil =>
    show Concludes _ _ _ (w.next L (.write n (outcome i)))
    rcases ho : outcome i with _ | ⟨effect,e⟩
    · simp [World.next, hn, World.write, writeAllDisks, ho, Concludes, World.finish, World.set,
        World.format, writeFormat, Except.map]
    · cases effect <;> simp [World.next, hn, World.write, writeAllDisks, ho, Concludes,
        World.finish, World.set, World.format, writeFormat, Except.map]
  | cons j todo ih =>
    show Concludes _ _ _ (after _ (w.next L (.write n (outcome i))) _)
    rcases ho : outcome i with _ | ⟨effect,e⟩
    · have hnext : w.next L (.write n .done) =
          (w.format L id i).set n (some (.writing id (j::todo))) := by
        simp [World.next, hn, World.write]
      obtain ⟨hdisks,hprocesses,hreturned⟩ := ih (i := j) (w := w.next L (.write n .done))
        (by simp [hnext, World.set])
      rw [writeAllDisks, ho]
      refine ⟨?_,?_,?_⟩
      · rw [hdisks, hnext]
        rfl
      · rw [hprocesses, hnext, World.set, Function.update_idem]
        rfl
      · rw [hreturned, hnext]
        rfl
    · rw [writes_idle]
      · cases effect <;> simp [World.next, hn, World.write, writeAllDisks, ho, Concludes,
          World.finish, World.set, World.format, writeFormat, Except.map]
      · cases effect <;> simp [World.next, hn, World.write, World.finish, World.set]

theorem finish_set (q : Option Process) (r : Except FormatError Uuid) :
    (w.set n q).finish n r = w.finish n r := by
  cases r
  · rw [World.finish, set_set]
    rfl
  · rw [World.finish, set_set]
    rfl

theorem pass_run (p : Poll) (late : Bool) (rest : List Action)
    (hn : w.processes n = some (.polling [])) :
    after (World.next L) w ((L.order n).map (fun i => .read n (p.faults i)) ++
        .decide n p.order p.fresh late :: rest) =
      after (World.next L)
        (match p.verdict L w.disks n with
        | .generate => w.set n (some (.writing p.fresh (L.order n)))
        | .done r => w.finish n r
        | .wait => if late then w.finish n (.error .timeout) else w) rest := by
  have htake : (readAll w.disks p (L.order n)).take (L.localDisks n).length =
      readAll w.disks p (L.localDisks n) := by
    simp [readAll, Layout.order]
  have hdrop : (readAll w.disks p (L.order n)).drop (L.localDisks n).length =
      readAll w.disks p (L.peerDisks n) := by
    simp [readAll, Layout.order]
  have hlen : (readAll w.disks p (L.order n)).length = L.count := by
    rw [readAll, List.length_map, L.length_order]
  have hpolling : (w.set n (some (.polling (readAll w.disks p (L.order n))))).processes n =
      some (.polling (readAll w.disks p (L.order n))) := by
    simp [World.set]
  rw [after_append, reads_run p hn List.drop_zero, List.nil_append]
  show after _ (World.next L (w.set n _) _) _ = _
  simp only [World.next, hpolling, hlen, if_true, World.decide, htake, hdrop, set_set, finish_set,
    set_self hn]
  rfl

theorem Concludes.of_set {q : Option Process} {r : Except FormatError Uuid × Disks} {w' : World}
    (h : Concludes (w.set n q) n r w') : Concludes w n r w' := by
  refine ⟨h.1,?_,h.2.2⟩
  rw [h.2.1, World.set, Function.update_idem]

theorem finished_run (polls : List Poll) (r : Except FormatError Uuid) :
    Concludes w n (r,w.disks) (after (World.next L) (w.finish n r)
      (pollActions L n polls ++ (L.order n).map (fun i => Action.write n (outcome i)))) := by
  have hnone : (w.finish n r).processes n = none := by cases r <;> simp [World.finish, World.set]
  rw [after_append, polls_idle polls (by simp [hnone]), writes_idle outcome _ hnone]
  cases r <;> simp [Concludes, World.finish, World.set]

theorem generated_run (polls : List Poll) {id : Uuid}
    (hn : w.processes n = some (.writing id (L.order n))) :
    Concludes w n ((writeAllDisks L id outcome (L.order n) w.disks).1.map (fun _ => id),
        (writeAllDisks L id outcome (L.order n) w.disks).2)
      (after (World.next L) w
        (pollActions L n polls ++ (L.order n).map (fun i => Action.write n (outcome i)))) := by
  rw [after_append, polls_idle polls (by simp [hn])]
  rcases horder : L.order n with _ | ⟨i,todo⟩
  · exact absurd (L.length_order n) (by simpa [horder] using L.count_pos.ne)
  · exact writes_run outcome (horder ▸ hn)

theorem polls_run (p : Poll) (polls : List Poll)
    (hn : w.processes n = some (.polling [])) :
    Concludes w n (bootstrapFormat L n outcome w.disks (p::polls))
      (after (World.next L) w
        (pollActions L n (p::polls) ++ (L.order n).map (fun i => Action.write n (outcome i)))) := by
  induction polls generalizing p with
  | nil =>
    rw [pollActions, List.append_assoc, List.cons_append, pass_run p _ _ hn, bootstrapFormat]
    rcases p.verdict L w.disks n with _ | r | _
    · exact (generated_run outcome [] (by simp [World.set])).of_set
    · exact finished_run outcome [] r
    · exact finished_run outcome [] (.error .timeout)
  | cons p' polls ih =>
    rw [pollActions, List.append_assoc, List.cons_append, pass_run p _ _ hn, bootstrapFormat]
    rcases p.verdict L w.disks n with _ | r | _
    · exact (generated_run outcome (p'::polls) (by simp [World.set])).of_set
    · exact finished_run outcome (p'::polls) r
    · exact ih p'

/-- The actions of a call, when no other node acts, leave what the call leaves. -/
theorem call_run (p : Poll) (polls : List Poll)
    (hn : w.processes n = none) :
    Concludes w n (bootstrapFormat L n outcome w.disks (p::polls))
      (after (World.next L) w (call L n outcome (p::polls))) := by
  have hboot : w.next L (.boot n) = w.set n (some (.polling [])) := by simp [World.next, hn]
  rw [call, after_append]
  show Concludes _ _ _ (after _ (after _ (w.next L (.boot n)) _) _)
  rw [hboot, ← after_append]
  exact (polls_run outcome p polls (by simp [World.set])).of_set

end Runs

def soleDisk : Layout := ⟨[(1,1)],1,by decide⟩

def cleanPoll : Poll := ⟨fun _ => none,.insertion _,Vector.replicate 16 7⟩

theorem soleDisk_formatted :
    (bootstrapFormat soleDisk 1 (fun _ => .done) World.blank.disks [cleanPoll]).1 =
        .ok cleanPoll.fresh ∧
      Concludes .blank 1 (bootstrapFormat soleDisk 1 (fun _ => .done) World.blank.disks [cleanPoll])
        (after (World.next soleDisk) .blank (call soleDisk 1 (fun _ => .done) [cleanPoll])) :=
  ⟨by decide +kernel,call_run (fun _ => .done) cleanPoll [] rfl⟩

end Openlake.Format
