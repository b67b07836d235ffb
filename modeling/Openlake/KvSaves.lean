import Openlake.Lib.GuardedRuns

/-!
# Saving a request's blocks in the background

The worker of the vLLM connector queues the saves that a scheduler step carries
and one thread puts their blocks into the store. A counter for each request says
how many of its saves are outstanding; a preemption deletes the counter, and a
save whose request has none is dropped. The thread's steps are its uses of the
shared state and its calls of the store; `getFinished` is one step of the
scheduler.

The store's answers are inputs, and so are the chunks that a save has to look at
(`entriesOf`). `holder` is not part of the worker: it says whose block each one
is. A preempted request's blocks are free from the step that reports it and those
of a finished one once it is returned.

In a calm run the counter is the number of saves that are queued or in flight, so
every put is of blocks of its request. Without that, a save from before a
preemption passes for one of the resumed request.
-/

set_option autoImplicit false

namespace Openlake.Saves

abbrev ReqId := String
abbrev BlockId := ℕ

structure ReqMeta where
  reqId : ReqId
  tokenLenChunk : ℕ
  blockIds : List (List BlockId)
  canSave : Bool
  deriving DecidableEq

def ReqMeta.blocks (m : ReqMeta) : List BlockId := m.blockIds.flatten

inductive Phase where
  | idle
  | taken (m : ReqMeta)
  | live (m : ReqMeta)
  | unskipped (m : ReqMeta)
  | keyed (m : ReqMeta) (entries : List (ℕ × ℕ))
  | ready (m : ReqMeta) (blocks : List BlockId)
  | answered (m : ReqMeta) (failed : Bool)
  | recorded (m : ReqMeta)
  | leaving (m : ReqMeta)
  deriving DecidableEq

structure World where
  storedRequests : ReqId → Option ℤ
  storePressureActive : Bool
  skipStoreRequests : List ReqId
  savedOffset : ReqId → Option ℕ
  queue : List ReqMeta
  phase : Phase
  finishedStoreReq : List ReqId
  holder : BlockId → Option ReqId

def World.start : World := ⟨fun _ => none,false,[],fun _ => none,[],.idle,[],fun _ => none⟩

namespace World

section Counters

variable (w : World)

def addStoredRequest (r : ReqId) : World :=
  { w with storedRequests :=
      Function.update w.storedRequests r (some ((w.storedRequests r).getD 0+1)) }

def decStoredRequest (r : ReqId) : World :=
  { w with storedRequests :=
      Function.update w.storedRequests r ((w.storedRequests r).map (fun c => c-1)) }

def deleteFinishedStoredRequest (r : ReqId) : World :=
  { w with
    storedRequests := Function.update w.storedRequests r none
    skipStoreRequests := w.skipStoreRequests.filter (fun x => x ≠ r)
    savedOffset := Function.update w.savedOffset r none }

def shouldSkipRequest (r : ReqId) : Bool := w.storePressureActive && r ∈ w.skipStoreRequests

def markRequestSkippedForPressure (r : ReqId) : World :=
  { w with storePressureActive := true, skipStoreRequests := r::w.skipStoreRequests }

def clearStorePressure : World := { w with storePressureActive := false, skipStoreRequests := [] }

def recordSaved (r : ReqId) (tokenLen : ℕ) : World :=
  if (w.storedRequests r).isSome then
    { w with savedOffset := Function.update w.savedOffset r (some tokenLen) }
  else w

end Counters

section Thread

variable (lcm : ℕ) (entriesOf : ReqMeta → ℕ → List (ℕ × ℕ))

def tokenLen (m : ReqMeta) : ℕ := m.tokenLenChunk/lcm*lcm

/-- The blocks of the chunks that the store does not have; `none` where an index is out of range. -/
def missingBlocks (m : ReqMeta) (entries : List (ℕ × ℕ)) (missing : List ℕ) : Option (List BlockId) :=
  missing.mapM (fun i => do
    let (group,chunk) ← entries[i]?
    let ids ← m.blockIds[group]?
    ids[chunk]?)

/-- The thread's next step; `reply` is what the store answers if it is asked, `none` an exception. -/
def work (w : World) (reply : Option (List ℤ)) : World :=
  match w.phase with
  | .idle =>
    match w.queue with
    | [] => w
    | m::queue => { w with queue := queue, phase := .taken m }
  | .taken m => { w with phase := if (w.storedRequests m.reqId).isSome then .live m else .idle }
  | .live m =>
    { w with phase :=
        if tokenLen lcm m = 0 ∨ w.shouldSkipRequest m.reqId then .leaving m else .unskipped m }
  | .unskipped m =>
    let saveStart := (w.savedOffset m.reqId).getD 0
    { w with phase :=
        if tokenLen lcm m ≤ saveStart then .leaving m else .keyed m (entriesOf m saveStart) }
  | .keyed m entries =>
    if entries = [] then { w.recordSaved m.reqId (tokenLen lcm m) with phase := .leaving m }
    else
      match reply with
      | none => { w with phase := .leaving m }
      | some found =>
        let missing := (found.zipIdx.filter (fun e => e.1 ≠ 1)).map Prod.snd
        if missing = [] then { w.recordSaved m.reqId (tokenLen lcm m) with phase := .leaving m }
        else
          match missingBlocks m entries missing with
          | none => { w with phase := .leaving m }
          | some blocks => { w with phase := .ready m blocks }
  | .ready m _ =>
    match reply with
    | none => { w with phase := .leaving m }
    | some results => { w with phase := .answered m (results.any (fun v => v < 0)) }
  | .answered m failed =>
    if failed then { w.markRequestSkippedForPressure m.reqId with phase := .leaving m }
    else { w.recordSaved m.reqId (tokenLen lcm m) with phase := .recorded m }
  | .recorded m => { w.clearStorePressure with phase := .leaving m }
  | .leaving m => { w.decStoredRequest m.reqId with phase := .idle }

end Thread

def free (w : World) (rs : List ReqId) : World :=
  { w with holder := fun b => (w.holder b).filter (fun r => r ∉ rs) }

def grantable (w : World) (m : ReqMeta) : Bool :=
  m.blocks.all (fun b => w.holder b = none ∨ w.holder b = some m.reqId)

def grant (w : World) (m : ReqMeta) : World :=
  { w with holder := fun b => if b ∈ m.blocks then some m.reqId else w.holder b }

def addSave (w : World) (m : ReqMeta) : World :=
  { (w.grant m).addStoredRequest m.reqId with queue := w.queue ++ [m] }

/-- The saves one after the other, as long as their blocks can be had. -/
def addSaves (w : World) : List ReqMeta → Option World
  | [] => some w
  | m::saves => if w.grantable m then (w.addSave m).addSaves saves else none

def deleteAll (w : World) (rs : List ReqId) : World := rs.foldl deleteFinishedStoredRequest w

/-- The requests whose last save has been decremented since they finished. -/
def laterFinished (w : World) : List ReqId :=
  w.finishedStoreReq.filter (fun r => w.storedRequests r = some 0)

def clearLaterFinished (w : World) : World :=
  { w.deleteAll w.laterFinished with
    finishedStoreReq := w.finishedStoreReq.filter (fun r => r ∉ w.laterFinished) }

def finishOne (w : World) (r : ReqId) : World × List ReqId :=
  match w.storedRequests r with
  | none => (w,[])
  | some c =>
    if c = 0 then (w.deleteFinishedStoredRequest r,[r])
    else ({ w with finishedStoreReq := r::w.finishedStoreReq },[])

def finishAll (w : World) : List ReqId → World × List ReqId
  | [] => (w,[])
  | r::rs =>
    let one := w.finishOne r
    let rest := one.1.finishAll rs
    (rest.1,one.2 ++ rest.2)

def getAndClearFinishedSending (w : World) (preempted finished : List ReqId) : World × List ReqId :=
  let w := w.deleteAll preempted
  let swept := w.clearLaterFinished.finishAll finished
  (swept.1,w.laterFinished ++ swept.2)

/-- The worker's part of a scheduler step, and what it returns in `done_sending`. -/
def getFinished (w : World) (requests : List ReqMeta) (preempted finished : List ReqId) :
    Option (World × List ReqId) := do
  let added ← (w.free preempted).addSaves (requests.filter ReqMeta.canSave)
  let (w,done) := added.getAndClearFinishedSending preempted finished
  return (w.free done,done)

end World

inductive Action where
  | getFinished (requests : List ReqMeta) (preempted finished : List ReqId)
  | allot (r : ReqId) (blocks : List BlockId)
  | work (reply : Option (List ℤ))
  deriving DecidableEq

/-- A step of the scheduler that asks for blocks it cannot have does not happen. -/
def World.next (lcm : ℕ) (entriesOf : ReqMeta → ℕ → List (ℕ × ℕ)) (w : World) : Action → World
  | .getFinished requests preempted finished =>
    match w.getFinished requests preempted finished with
    | none => w
    | some (w,_) => w
  | .allot r blocks =>
    { w with holder := fun b => if b ∈ blocks ∧ w.holder b = none then some r else w.holder b }
  | .work reply => w.work lcm entriesOf reply

def Phase.save : Phase → Option ReqMeta
  | .idle => none
  | .taken m | .live m | .unskipped m | .keyed m _ | .ready m _ | .answered m _ | .recorded m |
    .leaving m => some m

/-- The save that has passed the liveness check and not been put. -/
def Phase.checked : Phase → Option ReqMeta
  | .live m | .unskipped m | .keyed m _ | .ready m _ => some m
  | _ => none

def Phase.unput : Phase → Option ReqMeta
  | .taken m | .live m | .unskipped m | .keyed m _ | .ready m _ => some m
  | _ => none

def World.outstanding (w : World) : List ReqMeta := w.queue ++ w.phase.save.toList

def World.unput (w : World) : List ReqMeta := w.queue ++ w.phase.unput.toList

def World.outstandingOf (w : World) (r : ReqId) : ℕ :=
  w.outstanding.countP (fun m => m.reqId = r)

/-- A counter is not made anew while a save of its request is outstanding. -/
def World.Renewable (w : World) (m : ReqMeta) : Prop :=
  w.storedRequests m.reqId = none → ∀ x ∈ w.outstanding, x.reqId ≠ m.reqId

/-- A step of the scheduler that preempts no request whose save has been found live and not been put,
and makes no counter anew while a save of its request is outstanding. -/
def Calm (w : World) : Action → Prop
  | .getFinished requests preempted _ =>
    (∀ m ∈ w.phase.checked, m.reqId ∉ preempted) ∧
      ∀ m ∈ requests.filter ReqMeta.canSave, w.Renewable m
  | _ => True

instance (w : World) (m : ReqMeta) : Decidable (w.Renewable m) :=
  inferInstanceAs (Decidable (_ → _))

instance (w : World) : (a : Action) → Decidable (Calm w a)
  | .getFinished _ _ _ => inferInstanceAs (Decidable (_ ∧ _))
  | .allot _ _ => .isTrue trivial
  | .work _ => .isTrue trivial

/-- What the thread puts is its request's, and who is returned has nothing outstanding. -/
def Safe (w : World) : Action → Prop
  | .work _ => ∀ m blocks, w.phase = .ready m blocks → ∀ b ∈ blocks, w.holder b = some m.reqId
  | .getFinished requests preempted finished =>
    ∀ w' done, w.getFinished requests preempted finished = some (w',done) →
      ∀ r ∈ done, ∀ m ∈ w'.outstanding, m.reqId ≠ r
  | .allot _ _ => True

/-- The requests of `gone` have been preempted, and their counters are about to be deleted. -/
structure Counted (gone : List ReqId) (w : World) : Prop where
  counts : ∀ r c, w.storedRequests r = some c → c = w.outstandingOf r
  held : ∀ m ∈ w.unput, w.storedRequests m.reqId ≠ none → m.reqId ∉ gone →
    ∀ b ∈ m.blocks, w.holder b = some m.reqId
  live : ∀ m ∈ w.phase.checked, w.storedRequests m.reqId ≠ none ∧ m.reqId ∉ gone
  chosen : ∀ m blocks, w.phase = .ready m blocks → ∀ b ∈ blocks, b ∈ m.blocks

theorem start_counted : Counted [] .start := by
  constructor <;> simp [World.start, World.unput, Phase.unput, Phase.checked]

section Scheduler

variable {gone : List ReqId} {w : World}

theorem Counted.free (h : Counted [] w) (hgone : ∀ m ∈ w.phase.checked, m.reqId ∉ gone) :
    Counted gone (w.free gone) := by
  refine ⟨h.counts,fun m hm hstored hmem b hb => ?_,fun m hm => ⟨(h.live m hm).1,hgone m hm⟩,
    h.chosen⟩
  have hholder := h.held m hm hstored (by simp) b hb
  simp [World.free, hholder, hmem]

theorem stored_addSave (m : ReqMeta) (r : ReqId) : (w.addSave m).storedRequests r =
    if m.reqId = r then some ((w.storedRequests r).getD 0+1) else w.storedRequests r := by
  by_cases hr : m.reqId = r
  · subst hr
    simp [World.addSave, World.addStoredRequest, World.grant]
  · simp [World.addSave, World.addStoredRequest, World.grant, hr, Ne.symm hr]

theorem mem_outstanding_of_unput {m : ReqMeta} (h : m ∈ w.unput) : m ∈ w.outstanding := by
  rw [World.unput, List.mem_append] at h
  rw [World.outstanding, List.mem_append]
  refine h.imp_right fun hm => ?_
  rcases hp : w.phase <;> simp_all [Phase.unput, Phase.save]

variable {m x : ReqMeta}

theorem mem_unput_addSave : x ∈ (w.addSave m).unput ↔ x ∈ w.unput ∨ x = m := by
  simp [World.unput, World.addSave, World.addStoredRequest, World.grant, or_right_comm, or_assoc]

theorem mem_outstanding_addSave :
    x ∈ (w.addSave m).outstanding ↔ x ∈ w.outstanding ∨ x = m := by
  simp [World.outstanding, World.addSave, World.addStoredRequest, World.grant, or_right_comm, or_assoc]

theorem outstandingOf_addSave (m : ReqMeta) (r : ReqId) : (w.addSave m).outstandingOf r =
    w.outstandingOf r + if m.reqId = r then 1 else 0 := by
  simp only [World.outstandingOf, World.outstanding, World.addSave, World.addStoredRequest,
    World.grant, List.countP_append, List.countP_singleton, decide_eq_true_eq]
  omega

theorem Counted.addSave (h : Counted gone w) {m : ReqMeta} (hgrant : w.grantable m)
    (hnew : w.Renewable m) : Counted gone (w.addSave m) := by
  refine ⟨fun r c hc => ?_,fun x hx hstored hgone b hb => ?_,fun x hx => ?_,h.chosen⟩
  · rw [stored_addSave] at hc
    rw [outstandingOf_addSave]
    split_ifs at hc ⊢ with hr
    · subst hr
      rcases hold : w.storedRequests m.reqId with _ | c'
      · have hzero : w.outstandingOf m.reqId = 0 := by
          simpa [World.outstandingOf, List.countP_eq_zero] using hnew hold
        simp [hold] at hc
        simp [hzero, ← hc]
      · have := h.counts m.reqId c' hold
        simp [hold] at hc
        simp [← hc, this]
    · simpa using h.counts r c hc
  · have hholder : w.holder b = some x.reqId ∨ x = m := by
      rcases mem_unput_addSave.mp hx with hx | rfl
      · refine .inl (h.held x hx (fun hnone => ?_) hgone b hb)
        rw [stored_addSave] at hstored
        split_ifs at hstored with hr
        · exact hnew (hr ▸ hnone) x (mem_outstanding_of_unput hx) hr.symm
        · exact hstored hnone
      · exact .inr rfl
    show (if b ∈ m.blocks then some m.reqId else w.holder b) = _
    split_ifs with hmem
    · rcases hholder with hholder | rfl
      · have hfree := List.all_eq_true.mp hgrant b hmem
        simpa [hholder, eq_comm] using hfree
      · rfl
    · rcases hholder with hholder | rfl
      · exact hholder
      · exact absurd hb hmem
  · have := h.live x hx
    refine ⟨?_,this.2⟩
    rw [stored_addSave]
    split_ifs
    · simp
    · exact this.1

theorem Renewable.addSave (h : w.Renewable x) : (w.addSave m).Renewable x := by
  intro hnone y hy
  rw [stored_addSave] at hnone
  split_ifs at hnone with hr
  rcases mem_outstanding_addSave.mp hy with hy | rfl
  · exact h hnone y hy
  · exact hr

variable {w' : World}

theorem Counted.addSaves {saves : List ReqMeta} (h : Counted gone w)
    (hnew : ∀ m ∈ saves, w.Renewable m) (hw' : w.addSaves saves = some w') : Counted gone w' := by
  induction saves generalizing w with
  | nil =>
    cases hw'
    exact h
  | cons m saves ih =>
    rw [World.addSaves] at hw'
    split_ifs at hw' with hgrant
    exact ih (h.addSave hgrant (hnew m (by simp)))
      (fun x hx => Renewable.addSave (hnew x (List.mem_cons_of_mem _ hx))) hw'

/-- `w'` is `w` without the counters of `rs`. -/
structure Forgets (rs : List ReqId) (w w' : World) : Prop where
  queue : w'.queue = w.queue
  phase : w'.phase = w.phase
  holder : w'.holder = w.holder
  stored : ∀ r, w'.storedRequests r = if r ∈ rs then none else w.storedRequests r

theorem Forgets.trans {rs rs' : List ReqId} {w w' w'' : World} (h : Forgets rs w w')
    (h' : Forgets rs' w' w'') : Forgets (rs ++ rs') w w'' := by
  refine ⟨h'.queue.trans h.queue,h'.phase.trans h.phase,h'.holder.trans h.holder,fun r => ?_⟩
  rw [h'.stored, h.stored]
  by_cases hr : r ∈ rs <;> simp [hr]

theorem delete_forgets (w : World) (r : ReqId) : Forgets [r] w (w.deleteFinishedStoredRequest r) := by
  refine ⟨rfl,rfl,rfl,fun x => ?_⟩
  by_cases hx : x = r
  · subst hx
    simp [World.deleteFinishedStoredRequest]
  · simp [World.deleteFinishedStoredRequest, hx]

theorem deleteAll_forgets (w : World) (rs : List ReqId) : Forgets rs w (w.deleteAll rs) := by
  induction rs generalizing w with
  | nil => exact ⟨rfl,rfl,rfl,by simp [World.deleteAll]⟩
  | cons r rs ih => exact (delete_forgets w r).trans (ih _)

theorem clearLaterFinished_forgets (w : World) :
    Forgets w.laterFinished w w.clearLaterFinished := by
  obtain ⟨hqueue,hphase,hholder,hstored⟩ := deleteAll_forgets w w.laterFinished
  exact ⟨hqueue,hphase,hholder,hstored⟩

theorem Forgets.zero {rs : List ReqId} {w w' : World} (h : Forgets rs w w') {r : ReqId}
    (hr : w'.storedRequests r = some 0) : w.storedRequests r = some 0 := by
  rw [h.stored] at hr
  split_ifs at hr
  exact hr

theorem finishOne_forgets (w : World) (r : ReqId) :
    Forgets (w.finishOne r).2 w (w.finishOne r).1 ∧
      ∀ x ∈ (w.finishOne r).2, w.storedRequests x = some 0 := by
  have hsame : Forgets [] w w := ⟨rfl,rfl,rfl,by simp⟩
  rw [World.finishOne]
  rcases hr : w.storedRequests r with _ | c
  · exact ⟨hsame,by simp⟩
  · by_cases hc : c = 0
    · subst hc
      exact ⟨delete_forgets w r,by simpa using hr⟩
    · simp only [hc, if_false]
      exact ⟨⟨rfl,rfl,rfl,by simp⟩,by simp⟩

theorem finishAll_forgets (w : World) (rs : List ReqId) :
    Forgets (w.finishAll rs).2 w (w.finishAll rs).1 ∧
      ∀ r ∈ (w.finishAll rs).2, w.storedRequests r = some 0 := by
  induction rs generalizing w with
  | nil => exact ⟨⟨rfl,rfl,rfl,by simp [World.finishAll]⟩,by simp [World.finishAll]⟩
  | cons r rs ih =>
    obtain ⟨hone,hfirst⟩ := finishOne_forgets w r
    obtain ⟨hrest,hzero⟩ := ih (w.finishOne r).1
    refine ⟨hone.trans hrest,fun x hx => ?_⟩
    rcases List.mem_append.mp hx with hx | hx
    · exact hfirst x hx
    · exact hone.zero (hzero x hx)

theorem finished_forgets (w : World) (preempted finished : List ReqId) :
    Forgets (preempted ++ (w.getAndClearFinishedSending preempted finished).2) w
        (w.getAndClearFinishedSending preempted finished).1 ∧
      ∀ r ∈ (w.getAndClearFinishedSending preempted finished).2, w.storedRequests r = some 0 := by
  have hdelete := deleteAll_forgets w preempted
  have hlater := clearLaterFinished_forgets (w.deleteAll preempted)
  obtain ⟨hfinish,hzero⟩ := finishAll_forgets (w.deleteAll preempted).clearLaterFinished finished
  refine ⟨hdelete.trans (hlater.trans hfinish),fun r hr => ?_⟩
  rcases List.mem_append.mp hr with hr | hr
  · exact hdelete.zero (of_decide_eq_true (List.mem_filter.mp hr).2)
  · exact hdelete.zero (hlater.zero (hzero r hr))

theorem Counted.none_outstanding (h : Counted gone w) {r : ReqId} (hr : w.storedRequests r = some 0) :
    ∀ m ∈ w.outstanding, m.reqId ≠ r := by
  have hzero : w.outstandingOf r = 0 := by
    have := h.counts r 0 hr
    omega
  simpa [World.outstandingOf, List.countP_eq_zero] using hzero

theorem mem_outstanding_of_checked {m : ReqMeta} (h : m ∈ w.phase.checked) : m ∈ w.outstanding := by
  rw [World.outstanding, List.mem_append]
  right
  rcases hp : w.phase <;> simp_all [Phase.checked, Phase.save]

theorem Counted.forgets {done : List ReqId} (h : Counted gone w)
    (hw' : Forgets (gone ++ done) w w') (hdone : ∀ r ∈ done, w.storedRequests r = some 0) :
    Counted [] (w'.free done) := by
  have houtstanding : (w'.free done).outstanding = w.outstanding := by
    simp only [World.outstanding, World.free, hw'.queue, hw'.phase]
  have hunput : (w'.free done).unput = w.unput := by
    simp only [World.unput, World.free, hw'.queue, hw'.phase]
  have hstored (r : ReqId) (hr : w'.storedRequests r ≠ none) :
      r ∉ gone ++ done ∧ w'.storedRequests r = w.storedRequests r := by
    by_cases hmem : r ∈ gone ++ done
    · exact absurd (by rw [hw'.stored, if_pos hmem]) hr
    · exact ⟨hmem,by rw [hw'.stored, if_neg hmem]⟩
  refine ⟨fun r c hc => ?_,fun m hm hsome _ b hb => ?_,fun m hm => ⟨?_,by simp⟩,?_⟩
  · obtain ⟨-,hsame⟩ := hstored r (by simp [show w'.storedRequests r = some c from hc])
    rw [World.outstandingOf, houtstanding]
    exact h.counts r c (hsame ▸ hc)
  · obtain ⟨hmem,hsame⟩ := hstored m.reqId hsome
    rw [List.mem_append, not_or] at hmem
    have hholder := h.held m (hunput ▸ hm) (hsame ▸ hsome) hmem.1 b hb
    simp [World.free, hw'.holder, hholder, hmem.2]
  · have hchecked : m ∈ w.phase.checked := hw'.phase ▸ hm
    obtain ⟨hsome,hgone⟩ := h.live m hchecked
    have hundone : m.reqId ∉ done := fun hmem =>
      h.none_outstanding (hdone _ hmem) m (mem_outstanding_of_checked hchecked) rfl
    show w'.storedRequests m.reqId ≠ none
    rwa [hw'.stored, if_neg (by simp [hgone, hundone])]
  · intro m blocks hphase
    exact h.chosen m blocks (hw'.phase ▸ hphase)

theorem getFinished_safe {requests : List ReqMeta} {preempted finished done : List ReqId}
    (h : Counted [] w) (hcalm : Calm w (.getFinished requests preempted finished))
    (hw' : w.getFinished requests preempted finished = some (w',done)) :
    Counted [] w' ∧ ∀ r ∈ done, ∀ m ∈ w'.outstanding, m.reqId ≠ r := by
  rw [World.getFinished] at hw'
  obtain ⟨added,hadded,hw'⟩ := Option.bind_eq_some_iff.mp hw'
  cases hw'
  have hcounted : Counted preempted added := (h.free hcalm.1).addSaves hcalm.2 hadded
  obtain ⟨hforgets,hzero⟩ := finished_forgets added preempted finished
  refine ⟨hcounted.forgets hforgets hzero,fun r hr m hm => ?_⟩
  have hsame : ((added.getAndClearFinishedSending preempted finished).1.free
      (added.getAndClearFinishedSending preempted finished).2).outstanding = added.outstanding := by
    simp only [World.outstanding, World.free, hforgets.queue, hforgets.phase]
  exact hcounted.none_outstanding (hzero r hr) m (hsame ▸ hm)

end Scheduler

open Lib.GuardedRuns

theorem recordSaved_fields (w : World) (r : ReqId) (n : ℕ) :
    (w.recordSaved r n).storedRequests = w.storedRequests ∧ (w.recordSaved r n).queue = w.queue ∧
      (w.recordSaved r n).holder = w.holder := by
  rw [World.recordSaved]
  split_ifs
  · exact ⟨rfl,rfl,rfl⟩
  · exact ⟨rfl,rfl,rfl⟩

theorem missingBlocks_mem {m : ReqMeta} {entries : List (ℕ × ℕ)} {missing : List ℕ}
    {blocks : List BlockId} (h : World.missingBlocks m entries missing = some blocks) :
    ∀ b ∈ blocks, b ∈ m.blocks := by
  induction missing generalizing blocks with
  | nil =>
    cases h
    simp
  | cons i missing ih =>
    rw [World.missingBlocks, List.mapM_cons] at h
    obtain ⟨b,hb,h⟩ := Option.bind_eq_some_iff.mp h
    obtain ⟨bs,hbs,h⟩ := Option.bind_eq_some_iff.mp h
    cases h
    obtain ⟨⟨group,chunk⟩,-,hb⟩ := Option.bind_eq_some_iff.mp hb
    obtain ⟨ids,hids,hb⟩ := Option.bind_eq_some_iff.mp hb
    intro x hx
    rcases List.mem_cons.mp hx with rfl | hx
    · exact List.mem_flatten.mpr ⟨ids,List.mem_of_getElem? hids,List.mem_of_getElem? hb⟩
    · exact ih hbs x hx

section Thread

variable {w : World} (h : Counted [] w)

include h

variable {w' : World}

theorem Counted.advance (hstored : w'.storedRequests = w.storedRequests)
    (hqueue : w'.queue = w.queue) (hholder : w'.holder = w.holder)
    (hsave : w'.phase.save = w.phase.save) (hunput : ∀ m ∈ w'.phase.unput, m ∈ w.phase.unput)
    (hlive : ∀ m ∈ w'.phase.checked, w.storedRequests m.reqId ≠ none)
    (hchosen : ∀ m blocks, w'.phase = .ready m blocks → ∀ b ∈ blocks, b ∈ m.blocks) :
    Counted [] w' := by
  refine ⟨fun r c hc => ?_,fun m hm hsome hgone b hb => ?_,fun m hm => ⟨?_,by simp⟩,hchosen⟩
  · rw [World.outstandingOf, World.outstanding, hqueue, hsave]
    exact h.counts r c (hstored ▸ hc)
  · rw [hholder]
    refine h.held m ?_ (hstored ▸ hsome) hgone b hb
    rw [World.unput, List.mem_append, hqueue] at hm
    rw [World.unput, List.mem_append]
    refine hm.imp_right fun hm => ?_
    rw [Option.mem_toList] at hm ⊢
    exact hunput m hm
  · rw [hstored]
    exact hlive m hm

variable {m : ReqMeta}

theorem Counted.checked_live (hm : w.phase.checked = some m) :
    w.storedRequests m.reqId ≠ none := (h.live m hm).1

theorem Counted.leave (hstored : w'.storedRequests = w.storedRequests)
    (hqueue : w'.queue = w.queue) (hholder : w'.holder = w.holder)
    (hsave : w.phase.save = some m) (hphase : w'.phase = .leaving m) : Counted [] w' :=
  h.advance hstored hqueue hholder (by rw [hphase, hsave]; rfl) (by simp [hphase, Phase.unput])
    (by simp [hphase, Phase.checked]) (by simp [hphase])

theorem Counted.dequeue {queue : List ReqMeta} (hphase : w.phase = .idle)
    (hqueue : w.queue = m::queue) : Counted [] { w with queue := queue, phase := .taken m } := by
  refine ⟨fun r c hc => ?_,fun x hx => h.held x ?_,by simp [Phase.checked],by simp⟩
  · rw [h.counts r c hc, World.outstandingOf, World.outstandingOf, World.outstanding,
      World.outstanding, hqueue, hphase]
    simp only [Phase.save, Option.toList_none, List.append_nil, Option.toList_some,
      List.countP_append, List.countP_cons, List.countP_nil]
    push_cast
    omega
  · simpa [World.unput, hqueue, hphase, Phase.unput, or_comm] using hx

theorem Counted.settle (hsave : w.phase.save = some m)
    (hqueue : w'.queue = w.queue) (hholder : w'.holder = w.holder) (hphase : w'.phase = .idle)
    (hstored : ∀ r, w'.storedRequests r =
      (w.storedRequests r).map (fun c => if m.reqId = r then c-1 else c)) : Counted [] w' := by
  refine ⟨fun r c hc => ?_,fun x hx hsome hgone b hb => ?_,by simp [hphase, Phase.checked],
    by simp [hphase]⟩
  · rw [hstored, Option.map_eq_some_iff] at hc
    obtain ⟨c',hc',rfl⟩ := hc
    have hcount := h.counts r c' hc'
    rw [World.outstandingOf, World.outstanding, hsave] at hcount
    rw [World.outstandingOf, World.outstanding, hqueue, hphase]
    simp only [Phase.save, Option.toList_none, List.append_nil, Option.toList_some,
      List.countP_append, List.countP_singleton, decide_eq_true_eq] at hcount ⊢
    split_ifs at hcount ⊢ <;> omega
  · rw [hholder]
    refine h.held x ?_ ?_ hgone b hb
    · rw [World.unput, hqueue, hphase] at hx
      exact List.mem_append_left _ (by simpa [Phase.unput] using hx)
    · intro hnone
      rw [hstored, hnone] at hsome
      exact hsome rfl

theorem Counted.work (lcm : ℕ) (entriesOf : ReqMeta → ℕ → List (ℕ × ℕ)) (reply : Option (List ℤ)) :
    Counted [] (w.work lcm entriesOf reply) := by
  rcases hp : w.phase with _ | m | m | m | ⟨m,entries⟩ | ⟨m,blocks⟩ | ⟨m,failed⟩ | m | m
  · rcases hq : w.queue with _ | ⟨m,queue⟩
    · simpa only [World.work, hp, hq] using h
    · simpa only [World.work, hp, hq] using h.dequeue hp hq
  · simp only [World.work, hp]
    split_ifs with hlive
    · refine h.advance rfl rfl rfl (by simp [hp, Phase.save]) (by simp [hp, Phase.unput])
        (fun x hx => ?_) (by simp)
      obtain rfl : m = x := by simpa [Phase.checked] using hx
      exact Option.isSome_iff_ne_none.mp hlive
    · refine h.settle (m := m) (by simp [hp, Phase.save]) rfl rfl rfl fun r => ?_
      by_cases hr : m.reqId = r
      · subst hr
        simp [Option.not_isSome_iff_eq_none.mp hlive]
      · simp [hr]
  · have hlive := h.checked_live (m := m) (by simp [hp, Phase.checked])
    simp only [World.work, hp]
    split_ifs
    · exact h.leave rfl rfl rfl (by simp [hp, Phase.save]) rfl
    · exact h.advance rfl rfl rfl (by simp [hp, Phase.save]) (by simp [hp, Phase.unput])
        (by simpa [Phase.checked] using hlive) (by simp)
  · have hlive := h.checked_live (m := m) (by simp [hp, Phase.checked])
    simp only [World.work, hp]
    split_ifs
    · exact h.leave rfl rfl rfl (by simp [hp, Phase.save]) rfl
    · exact h.advance rfl rfl rfl (by simp [hp, Phase.save]) (by simp [hp, Phase.unput])
        (by simpa [Phase.checked] using hlive) (by simp)
  · have hlive := h.checked_live (m := m) (by simp [hp, Phase.checked])
    have hsave : w.phase.save = some m := by simp [hp, Phase.save]
    obtain ⟨hstored,hqueue,hholder⟩ := recordSaved_fields w m.reqId (World.tokenLen lcm m)
    simp only [World.work, hp]
    split_ifs
    · exact h.leave hstored hqueue hholder hsave rfl
    · split
      · exact h.leave rfl rfl rfl hsave rfl
      · split_ifs
        · exact h.leave hstored hqueue hholder hsave rfl
        · split
          · exact h.leave rfl rfl rfl hsave rfl
          · rename_i blocks hblocks
            refine h.advance rfl rfl rfl (by simp [hp, Phase.save]) (by simp [hp, Phase.unput])
              (by simpa [Phase.checked] using hlive) (fun x bs hx => ?_)
            cases hx
            exact missingBlocks_mem hblocks
  · have hsave : w.phase.save = some m := by simp [hp, Phase.save]
    simp only [World.work, hp]
    split
    · exact h.leave rfl rfl rfl hsave rfl
    · exact h.advance rfl rfl rfl (by simp [hp, Phase.save]) (by simp [Phase.unput])
        (by simp [Phase.checked]) (by simp)
  · have hsave : w.phase.save = some m := by simp [hp, Phase.save]
    obtain ⟨hstored,hqueue,hholder⟩ := recordSaved_fields w m.reqId (World.tokenLen lcm m)
    simp only [World.work, hp]
    split_ifs
    · exact h.leave rfl rfl rfl hsave rfl
    · exact h.advance hstored hqueue hholder (by simp [hp, Phase.save]) (by simp [Phase.unput])
        (by simp [Phase.checked]) (by simp)
  · simp only [World.work, hp]
    exact h.leave rfl rfl rfl (by simp [hp, Phase.save]) rfl
  · simp only [World.work, hp]
    refine h.settle (m := m) (by simp [hp, Phase.save]) rfl rfl rfl fun r => ?_
    by_cases hr : m.reqId = r
    · subst hr
      simp [World.decStoredRequest]
    · simp [World.decStoredRequest, hr, Ne.symm hr]

end Thread

section Runs

variable (lcm : ℕ) (entriesOf : ReqMeta → ℕ → List (ℕ × ℕ))

theorem next_counted {w : World} (h : Counted [] w) {a : Action} (hcalm : Calm w a) :
    Counted [] (w.next lcm entriesOf a) := by
  cases a with
  | getFinished requests preempted finished =>
    rw [World.next]
    split
    · exact h
    · rename_i w' done hw'
      exact (getFinished_safe h hcalm hw').1
  | allot r blocks =>
    refine ⟨h.counts,fun m hm hsome hgone b hb => ?_,h.live,h.chosen⟩
    have hholder := h.held m hm hsome hgone b hb
    simp [World.next, hholder]
  | work reply => exact h.work lcm entriesOf reply

theorem counted_safe {w : World} (h : Counted [] w) {a : Action} (hcalm : Calm w a) : Safe w a := by
  cases a with
  | getFinished requests preempted finished =>
    intro w' done hw'
    exact (getFinished_safe h hcalm hw').2
  | allot r blocks => trivial
  | work reply =>
    intro m blocks hphase b hb
    obtain ⟨hsome,hgone⟩ := h.live m (by simp [hphase, Phase.checked])
    exact h.held m (by simp [World.unput, hphase, Phase.unput]) hsome hgone b
      (h.chosen m blocks hphase b hb)

/-- In every run whose scheduler steps are calm, every put is of blocks of its request and every
request that is returned has no save outstanding. -/
theorem calm_saves_safe (actions : List Action)
    (hcalm : Always (World.next lcm entriesOf) Calm .start actions) :
    Always (World.next lcm entriesOf) Safe .start actions :=
  hcalm.imp (Counted []) (fun _ _ h ha => next_counted lcm entriesOf h ha)
    (fun _ _ h ha => counted_safe h ha) start_counted

end Runs

def sampleSave (r : ReqId) (b : BlockId) : ReqMeta := ⟨r,1,[[b]],true⟩

def oneChunk (_ : ReqMeta) (_ : ℕ) : List (ℕ × ℕ) := [(0,0)]

def workTimes (n : ℕ) : List Action := List.replicate n (.work (some [0]))

/-- One save from the queue to its last step, and its request returned. -/
def quietActions : List Action :=
  .getFinished [sampleSave "r" 0] [] [] :: workTimes 9 ++ [Action.getFinished [] [] ["r"]]

theorem quiet_saves_safe : Always (World.next 1 oneChunk) Calm .start quietActions ∧
    Always (World.next 1 oneChunk) Safe .start quietActions :=
  have hcalm : Always (World.next 1 oneChunk) Calm .start quietActions := by decide +kernel
  ⟨hcalm,calm_saves_safe 1 oneChunk quietActions hcalm⟩

/-- A request is preempted while its save is queued, another one gets its block, and the request
resumes with a new block; the thread then takes the old save. -/
def resumedActions : List Action :=
  ([.getFinished [sampleSave "r" 0] [] [],.getFinished [] ["r"] [],.allot "q" [0],
    .getFinished [sampleSave "r" 1] [] []] : List Action) ++ workTimes 5

/-- A request is preempted between the check of its save and the put. -/
def overtakenActions : List Action :=
  .getFinished [sampleSave "r" 0] [] [] :: workTimes 5 ++ [Action.getFinished [] ["r"] []]

/-- The old save is found live and put from the other request's block, and it takes the new save's
place in the counter, so that the request is returned with the new save queued; and a save that was
found live before the preemption is put from a free block. -/
theorem resumed_unsafe :
    (after (World.next 1 oneChunk) .start resumedActions).phase = .ready (sampleSave "r" 0) [0] ∧
      (after (World.next 1 oneChunk) .start resumedActions).holder 0 = some "q" ∧
      ((after (World.next 1 oneChunk) .start (resumedActions ++ workTimes 4)).getFinished
          [] [] ["r"]).map (fun x => (x.2,x.1.outstanding)) =
        some (["r"],[sampleSave "r" 1]) ∧
      (after (World.next 1 oneChunk) .start overtakenActions).phase = .ready (sampleSave "r" 0) [0] ∧
      (after (World.next 1 oneChunk) .start overtakenActions).holder 0 = none := by
  decide +kernel

end Openlake.Saves
