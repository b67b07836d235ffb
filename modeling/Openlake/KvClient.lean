import Openlake.KvEngine
import Openlake.Lib.Outcomes

/-!
# Where a client's put writes

A put reserves a slot for each key and writes the key, then its strips one after
the other, from the start of the slot. Over RDMA the strips are checked first
against the registered regions and against the room of a slot; through shared
memory they are not. Lengths and offsets are 64-bit numbers of a release build,
where overflow wraps. A batch has been validated and shared out among the nodes
before it gets here, so that each key comes with its strips.

The writes for a key stay in its slot exactly when the key and its strips fit
there. Over RDMA the checks come to this unless the subtraction or the sum wraps.
-/

set_option autoImplicit false

namespace Openlake.Kv

abbrev Scatter := List (ℕ × ℕ)

def total (scatter : Scatter) : ℕ := (scatter.map Prod.snd).sum

structure ExternalMr where
  addr : ℕ
  len : ℕ
  lkey : ℕ
  deriving DecidableEq

def ExternalMr.contains (m : ExternalMr) (addr len : ℕ) : Bool :=
  m.addr ≤ addr ∧ min (addr+len) (2^64-1) ≤ (m.addr+m.len) % 2^64

def hex (n : ℕ) : String := "0x" ++ String.ofList (Nat.toDigits 16 n)

def regionOf (mrs : List ExternalMr) (cur addr len : ℕ) : Option ℕ :=
  let covers := fun m : ExternalMr => m.contains addr len
  if (mrs[cur]?).any covers then some cur
  else if (mrs[cur+1]?).any covers then some (cur+1)
  else mrs.findIdx? covers

def planStrips (mrs : List ExternalMr) (i : ℕ) : ℕ → Scatter → Except String (List (ℕ × ℕ × ℕ))
  | _,[] => .ok []
  | cur,(addr,len)::scatter =>
    if len = 0 ∨ 2^32-1 < len then
      .error ("key " ++ toString i ++ ": invalid strip length " ++ toString len)
    else
      match regionOf mrs cur addr len with
      | none => .error ("key " ++ toString i ++ ": address " ++ hex addr ++ " not registered")
      | some cur => do
        let plan ← planStrips mrs i cur scatter
        return (addr,len,((mrs[cur]?).map ExternalMr.lkey).getD 0)::plan

def resolvePlans (mrs : List ExternalMr) (payloadCap : ℕ) (scatters : List Scatter) :
    Except String (List (List (ℕ × ℕ × ℕ))) :=
  scatters.zipIdx.mapM (fun s =>
    let sum := total s.1 % 2^64
    if sum = 0 ∨ payloadCap < sum then
      .error ("key " ++ toString s.2 ++ ": payload " ++ toString sum ++ " not in (0, " ++
        toString payloadCap ++ "]")
    else planStrips mrs s.2 0 s.1)

/-- The room of a slot after the key, by unsigned subtraction. -/
def payloadCap (slotBytes : ℕ) : ℕ := (slotBytes+2^64-keyBytes) % 2^64

/-- Bytes written from an address on; `mapped` if that is relative to the slab. -/
structure Write where
  mapped : Bool
  start : ℕ
  len : ℕ
  deriving DecidableEq

def stripWrites (mapped : Bool) (dst : ℕ) : ℕ → List ℕ → List Write
  | _,[] => []
  | off,len::lens => ⟨mapped,dst+off,len⟩::stripWrites mapped dst ((off+len) % 2^64) lens

def slotWrites (mapped : Bool) (slotBytes slot : ℕ) (lens : List ℕ) : List Write :=
  ⟨mapped,slot*slotBytes,keyBytes⟩::stripWrites mapped (slot*slotBytes) keyBytes lens

def toKeyHashes (keys : List (List UInt8)) : Except String (List KeyHash) :=
  keys.zipIdx.mapM (fun k =>
    match KeyHash.tryFrom k.1 with
    | some hash => .ok hash
    | none => .error ("key " ++ toString k.2 ++ ": " ++ toString k.1.length ++ " bytes, want " ++
        toString keyBytes))

def stagingCapacity : ℕ := 64*1024

inductive View where
  | rdma (slotBytes : Option ℕ)
  | shm (mapped : Bool) (slotBytes : ℕ)

/-- What an attach leaves with a client of shared memory; `none` is an error. -/
def shmView : KvResponse → Option View
  | .attached _ slotBytes _ => some (if slotBytes = 0 then .shm false 0 else .shm true slotBytes)
  | _ => none

def putChecks (view : View) (mrs : List ExternalMr) (node : ℕ)
    (items : List (List UInt8 × Scatter)) : Except String Unit :=
  match view with
  | .rdma slotBytes => do
    let _ ← toKeyHashes (items.map Prod.fst)
    match slotBytes with
    | none => .error ("node " ++ toString node ++ " has no kv slab")
    | some slotBytes =>
      let _ ← resolvePlans mrs (payloadCap slotBytes) (items.map Prod.snd)
      if stagingCapacity < items.length*keyBytes then
        .error ("batch too large: " ++ toString items.length ++ " keys")
      else .ok ()
  | .shm _ _ => .ok ()

def View.slotBytes : View → ℕ
  | .rdma slotBytes => slotBytes.getD 0
  | .shm _ slotBytes => slotBytes

def View.mapped : View → Bool
  | .rdma _ => true
  | .shm mapped _ => mapped

def storeFull (got want : ℕ) : View → String
  | .rdma _ => "store full: reserved " ++ toString got ++ " of " ++ toString want ++ " slots"
  | .shm _ _ => "store full: reserved " ++ toString got ++ " of " ++ toString want

/-- The writes of a put for each key, when the engine answers its request for slots. -/
def put (view : View) (mrs : List ExternalMr) (node : ℕ) (items : List (List UInt8 × Scatter))
    (slots : List ℕ) : Except String (List (ℕ × List Write)) := do
  putChecks view mrs node items
  if slots.length < items.length then .error (storeFull slots.length items.length view)
  else return List.zipWith (fun slot item =>
    (slot,slotWrites view.mapped view.slotBytes slot (item.2.map Prod.snd))) slots items

/-- The engine, and what each attach left with its client. -/
structure System where
  engine : KvEngine
  views : List View

inductive Occurrence where
  | shmAttach (created : Except String String) (slotBytes : UInt32)
  | rdmaAttach (slotBytes : UInt32)
  | verb (verb : Verb)

def System.step (sys : System) (m : Moment) : Occurrence → Option System
  | .shmAttach created slotBytes => do
    let (resp,engine) ← sys.engine.serveTcp m created (.attach slotBytes)
    return ⟨engine,(shmView resp).toList ++ sys.views⟩
  | .rdmaAttach slotBytes =>
    if sys.engine.hostBacked then none
    else
      let engine := sys.engine.attach slotBytes
      some ⟨engine,.rdma (engine.slab.map Slab.slotBytes)::sys.views⟩
  | .verb verb => do
    let (_,engine) ← sys.engine.handle m verb
    return ⟨engine,sys.views⟩

def System.run (sys : System) (occurrences : List (Moment × Occurrence)) : Option System :=
  occurrences.foldlM (fun sys o => sys.step o.1 o.2) sys

def System.start (capacityBytes reserveTtl : ℕ) (hostBacked : Bool) : System :=
  ⟨.new capacityBytes reserveTtl hostBacked,[]⟩

open Slots Lib.Outcomes

/-- Every byte the write touches is in the slot, and in the slab. -/
def Write.Inside (slab : Slab) (slot : ℕ) (w : Write) : Prop :=
  ∀ x, w.start ≤ x → x < w.start+w.len → w.mapped ∧
    slot*slab.slotBytes ≤ x ∧ x < (slot+1)*slab.slotBytes ∧ x < slab.slotBytes*slab.slotCount

section Layout

variable {slab : Slab} {slot : ℕ} (hslot : slot < slab.slotCount)

include hslot

theorem inside_iff (mapped : Bool) (off len : ℕ) (hlen : 0 < len) :
    Write.Inside slab slot ⟨mapped,slot*slab.slotBytes+off,len⟩ ↔
      mapped ∧ off+len ≤ slab.slotBytes := by
  have hend : (slot+1)*slab.slotBytes ≤ slab.slotBytes*slab.slotCount := by
    rw [Nat.mul_comm slab.slotBytes]
    exact Nat.mul_le_mul_right _ hslot
  have hnext : (slot+1)*slab.slotBytes = slot*slab.slotBytes+slab.slotBytes := Nat.succ_mul _ _
  constructor
  · intro h
    obtain ⟨hmapped,-,hlast,-⟩ := h (slot*slab.slotBytes+off+(len-1)) (by simp) (by simp; omega)
    exact ⟨hmapped,by omega⟩
  · rintro ⟨hmapped,hfits⟩ x hlo hhi
    simp only at hlo hhi
    exact ⟨hmapped,by omega,by omega,by omega⟩

/-- The first strip that leaves the slot starts inside it, so its offset has not wrapped. -/
theorem stripWrites_inside_iff (mapped : Bool) (hsize : slab.slotBytes < 2^64) (off : ℕ)
    (hoff : off ≤ slab.slotBytes) (hmapped : mapped) (lens : List ℕ) :
    (∀ w ∈ stripWrites mapped (slot*slab.slotBytes) off lens, w.Inside slab slot) ↔
      off+lens.sum ≤ slab.slotBytes := by
  induction lens generalizing off with
  | nil => simpa [stripWrites] using hoff
  | cons len lens ih =>
    rw [stripWrites, List.forall_mem_cons, List.sum_cons]
    by_cases hlen : len = 0
    · subst hlen
      have hfirst : Write.Inside slab slot ⟨mapped,slot*slab.slotBytes+off,0⟩ := by
        intro x hlo hhi
        simp only at hlo hhi
        omega
      rw [Nat.add_zero, Nat.mod_eq_of_lt (by omega), ih off hoff]
      simp [hfirst]
    · rw [inside_iff hslot mapped off len (by omega)]
      by_cases hfits : off+len ≤ slab.slotBytes
      · rw [Nat.mod_eq_of_lt (by omega), ih _ hfits]
        simp only [hmapped, hfits, true_and]
        omega
      · simp only [hfits, and_false, false_and, false_iff]
        omega

theorem slotWrites_inside_iff (mapped : Bool) (hsize : slab.slotBytes < 2^64) (lens : List ℕ) :
    (∀ w ∈ slotWrites mapped slab.slotBytes slot lens, w.Inside slab slot) ↔
      mapped ∧ keyBytes+lens.sum ≤ slab.slotBytes := by
  have hkey := inside_iff hslot mapped 0 keyBytes (by decide)
  rw [Nat.add_zero, Nat.zero_add] at hkey
  rw [slotWrites, List.forall_mem_cons, hkey]
  constructor
  · rintro ⟨⟨hmapped,hroom⟩,hstrips⟩
    exact ⟨hmapped,(stripWrites_inside_iff hslot mapped hsize keyBytes hroom hmapped lens).mp hstrips⟩
  · rintro ⟨hmapped,hfits⟩
    have hroom : keyBytes ≤ slab.slotBytes := by omega
    exact ⟨⟨hmapped,hroom⟩,
      (stripWrites_inside_iff hslot mapped hsize keyBytes hroom hmapped lens).mpr hfits⟩

end Layout

variable {mrs : List ExternalMr}

theorem resolvePlans_room {cap : ℕ} {scatters : List Scatter}
    {plans : List (List (ℕ × ℕ × ℕ))} (h : resolvePlans mrs cap scatters = .ok plans)
    (scatter : Scatter) (hs : scatter ∈ scatters) :
    total scatter % 2^64 ≤ cap := by
  obtain ⟨i,hi⟩ := List.getElem?_of_mem hs
  obtain ⟨plan,hplan⟩ := mapM_ok_mem h (scatter,i) (List.mk_mem_zipIdx_iff_getElem?.mpr hi)
  simp only at hplan
  split_ifs at hplan with hbad
  omega

theorem payloadCap_eq (slotBytes : ℕ) (h : keyBytes ≤ slotBytes) (hsize : slotBytes < 2^64) :
    payloadCap slotBytes = slotBytes-keyBytes := by
  simp only [payloadCap, keyBytes] at *
  omega

variable {items : List (List UInt8 × Scatter)} {node : ℕ}

theorem putChecks_rdma {slotBytes : Option ℕ}
    (h : putChecks (.rdma slotBytes) mrs node items = .ok ()) :
    ∃ size, slotBytes = some size ∧ ∀ item ∈ items, total item.2 % 2^64 ≤ payloadCap size := by
  simp only [putChecks] at h
  rcases hk : toKeyHashes (items.map Prod.fst) with e | hashes
  · rw [hk] at h
    cases h
  rw [hk] at h
  cases slotBytes with
  | none => cases h
  | some size =>
    refine ⟨size,rfl,fun item hitem => ?_⟩
    rcases hp : resolvePlans mrs (payloadCap size) (items.map Prod.snd) with e | plans
    · simp only [hp] at h
      cases h
    · exact resolvePlans_room hp item.2 (List.mem_map_of_mem hitem)

/-- A client's condition for a put of one key: over RDMA that the unsigned arithmetic does not wrap,
through shared memory that the slab is mapped and the strips fit. -/
def View.Safe (slab : Slab) (scatter : Scatter) : View → Prop
  | .rdma _ => keyBytes ≤ slab.slotBytes ∧ total scatter < 2^64
  | .shm mapped _ => mapped ∧ keyBytes+total scatter ≤ slab.slotBytes

/-- What a client knows of the slab is its size or nothing. -/
inductive Knows (slab : Option Slab) : View → Prop
  | unmapped : Knows slab (.shm false 0)
  | absent : Knows slab (.rdma none)
  | mapped (s : Slab) (h : slab = some s) : Knows slab (.shm true s.slotBytes)
  | present (s : Slab) (h : slab = some s) : Knows slab (.rdma (some s.slotBytes))

structure Slab.Sound (slab : Slab) : Prop where
  positive : 0 < slab.slotBytes
  size : slab.slotBytes < 2^32
  pool : ∃ slotCount, slotCount ≤ slab.slotCount ∧ Kv.Sound slotCount slab.pool

structure System.Sound (sys : System) : Prop where
  slab : ∀ slab, sys.engine.slab = some slab → slab.Sound
  views : ∀ v ∈ sys.views, Knows sys.engine.slab v

theorem Knows.keep {slab slab' : Option Slab} {v : View} (h : Knows slab v)
    (hkeep : ∀ s, slab = some s → ∃ s', slab' = some s' ∧ s'.slotBytes = s.slotBytes) :
    Knows slab' v := by
  cases h with
  | unmapped => exact .unmapped
  | absent => exact .absent
  | mapped s hs =>
    obtain ⟨s',hs',hsize⟩ := hkeep s hs
    rw [← hsize]
    exact .mapped s' hs'
  | present s hs =>
    obtain ⟨s',hs',hsize⟩ := hkeep s hs
    rw [← hsize]
    exact .present s' hs'

theorem mod_le_nilSlot (n : ℕ) : n % 2^32 ≤ nilSlot := by
  have := Nat.mod_lt n (show 0 < 2^32 by decide)
  simp only [nilSlot]
  omega

theorem hostSlab_sound (e : KvEngine) (slotBytes : UInt32) (name : String) (h : 0 < slotBytes.toNat) :
    (e.hostSlab slotBytes name).Sound :=
  ⟨h,slotBytes.toNat_lt,_,le_rfl,[],new_inv _ _ (mod_le_nilSlot _)⟩

theorem rdmaSlab_sound (e : KvEngine) (slotBytes : UInt32) (h : 0 < slotBytes.toNat) :
    (e.rdmaSlab slotBytes).Sound :=
  ⟨h,slotBytes.toNat_lt,_,Nat.mod_le _ _,[],new_inv _ _ (mod_le_nilSlot _)⟩

theorem attached_knows (e : KvEngine) (hsound : ∀ slab, e.slab = some slab → slab.Sound) (v : View)
    (hv : v ∈ (shmView e.attached).toList) : Knows e.slab v := by
  rw [KvEngine.attached] at hv
  rcases he : e.slab with _ | slab
  · simp only [he, shmView, if_true, Option.toList_some, List.mem_singleton] at hv
    exact hv ▸ .unmapped
  · have hne : slab.slotBytes ≠ 0 := (hsound slab he).positive.ne'
    rcases hn : slab.shmName with _ | name
    · simp [he, hn, shmView] at hv
    · simp only [he, hn, shmView, hne, if_false, Option.toList_some, List.mem_singleton] at hv
      exact hv ▸ .mapped slab rfl

variable {m : Moment} {resp : KvResponse} {e e' : KvEngine}

theorem handle_sound {verb : Verb}
    (hsound : ∀ slab, e.slab = some slab → slab.Sound) (h : e.handle m verb = some (resp,e')) :
    (∀ slab, e'.slab = some slab → slab.Sound) ∧
      ∀ s, e.slab = some s → ∃ s', e'.slab = some s' ∧ s'.slotBytes = s.slotBytes := by
  rw [KvEngine.handle] at h
  rcases he : e.slab with _ | slab
  · rw [he] at h
    cases h
    exact ⟨hsound,by simp⟩
  · obtain ⟨hpos,hsize,n,hn,hpool⟩ := hsound slab he
    obtain ⟨resp',next,hserve,hnext⟩ := serveVerb_sound m verb hpool
    simp only [he, hserve, Option.bind_eq_bind, Option.bind_some, Option.pure_def,
      Option.some.injEq, Prod.mk.injEq] at h
    obtain ⟨-,rfl⟩ := h
    refine ⟨?_,?_⟩
    · rintro _ ⟨⟩
      exact ⟨hpos,hsize,n,hn,hnext⟩
    · rintro s ⟨⟩
      exact ⟨_,rfl,rfl⟩

variable {slab : Slab}

theorem slab_made {e : KvEngine} (hnone : e.slab.isNone) (hsound : slab.Sound) :
    (∀ s, some slab = some s → s.Sound) ∧
      ∀ s, e.slab = some s → ∃ s', some slab = some s' ∧ s'.slotBytes = s.slotBytes := by
  refine ⟨?_,fun s hs => by simp [hs] at hnone⟩
  rintro _ ⟨⟩
  exact hsound

theorem attach_sound {created : Except String String}
    {slotBytes : UInt32} (hsound : ∀ slab, e.slab = some slab → slab.Sound)
    (h : e.serveTcp m created (.attach slotBytes) = some (resp,e')) :
    (∀ slab, e'.slab = some slab → slab.Sound) ∧
      (∀ s, e.slab = some s → ∃ s', e'.slab = some s' ∧ s'.slotBytes = s.slotBytes) ∧
      (resp = e'.attached ∨ shmView resp = none) := by
  have hkeep (s : Slab) (hs : e.slab = some s) :
      ∃ s', e.slab = some s' ∧ s'.slotBytes = s.slotBytes := ⟨s,hs,rfl⟩
  simp only [KvEngine.serveTcp] at h
  split_ifs at h with hmake
  · cases created with
    | ok name =>
      cases h
      obtain ⟨hslab,hkept⟩ := slab_made hmake.2.2 (hostSlab_sound e slotBytes name hmake.2.1)
      exact ⟨hslab,hkept,.inl rfl⟩
    | error why =>
      cases h
      exact ⟨hsound,hkeep,.inr rfl⟩
  · cases h
    exact ⟨hsound,hkeep,.inl rfl⟩

theorem rdmaAttach_sound {e : KvEngine} (slotBytes : UInt32)
    (hsound : ∀ slab, e.slab = some slab → slab.Sound) :
    (∀ slab, (e.attach slotBytes).slab = some slab → slab.Sound) ∧
      ∀ s, e.slab = some s → ∃ s', (e.attach slotBytes).slab = some s' ∧ s'.slotBytes = s.slotBytes := by
  rw [KvEngine.attach]
  split_ifs with hmake
  · exact slab_made hmake.2 (rdmaSlab_sound e slotBytes hmake.1)
  · exact ⟨hsound,fun s hs => ⟨s,hs,rfl⟩⟩

theorem step_sound {sys next : System} {o : Occurrence} (hsound : sys.Sound)
    (h : sys.step m o = some next) : next.Sound := by
  cases o with
  | shmAttach created slotBytes =>
    simp only [System.step, Option.bind_eq_bind, Option.bind_eq_some_iff, Option.pure_def,
      Option.some.injEq] at h
    obtain ⟨⟨resp,engine⟩,ha,rfl⟩ := h
    obtain ⟨hslab,hkeep,hresp⟩ := attach_sound hsound.slab ha
    refine ⟨hslab,fun v hv => ?_⟩
    rcases List.mem_append.mp hv with hv | hv
    · rcases hresp with hresp | hresp
      · simp only [hresp] at hv
        exact attached_knows engine hslab v hv
      · simp [hresp] at hv
    · exact (hsound.views v hv).keep hkeep
  | rdmaAttach slotBytes =>
    simp only [System.step] at h
    split_ifs at h
    cases h
    obtain ⟨hslab,hkeep⟩ := rdmaAttach_sound slotBytes hsound.slab
    refine ⟨hslab,fun v hv => ?_⟩
    rcases List.mem_cons.mp hv with rfl | hv
    · rcases he : (sys.engine.attach slotBytes).slab with _ | slab
      · exact .absent
      · exact .present slab rfl
    · exact (hsound.views v hv).keep hkeep
  | verb verb =>
    simp only [System.step, Option.bind_eq_bind, Option.bind_eq_some_iff, Option.pure_def,
      Option.some.injEq] at h
    obtain ⟨⟨resp,engine⟩,hh,rfl⟩ := h
    obtain ⟨hslab,hkeep⟩ := handle_sound hsound.slab hh
    exact ⟨hslab,fun v hv => (hsound.views v hv).keep hkeep⟩

theorem run_sound {sys final : System} (occurrences : List (Moment × Occurrence))
    (hsound : sys.Sound) (h : sys.run occurrences = some final) : final.Sound := by
  induction occurrences generalizing sys with
  | nil =>
    cases h
    exact hsound
  | cons o occurrences ih =>
    rw [System.run, List.foldlM_cons, Option.bind_eq_bind, Option.bind_eq_some_iff] at h
    obtain ⟨next,hstep,hrun⟩ := h
    exact ih (step_sound hsound hstep) hrun

theorem start_sound (capacityBytes reserveTtl : ℕ) (hostBacked : Bool) :
    (System.start capacityBytes reserveTtl hostBacked).Sound :=
  ⟨by simp [System.start, KvEngine.new],by simp [System.start]⟩

variable {slots : List ℕ} {view : View}

theorem put_ok
    {writes : List (ℕ × List Write)} (h : put view mrs node items slots = .ok writes) :
    putChecks view mrs node items = .ok () ∧ items.length ≤ slots.length ∧
      writes = List.zipWith (fun slot item =>
        (slot,slotWrites view.mapped view.slotBytes slot (item.2.map Prod.snd))) slots items := by
  rw [put] at h
  rcases hc : putChecks view mrs node items with e | u
  · rw [hc] at h
    cases h
  · rw [hc] at h
    change (if slots.length < items.length then _ else _) = _ at h
    split_ifs at h with hfull
    cases h
    exact ⟨rfl,by omega,rfl⟩

theorem reserve_lt (hsound : slab.Sound) {count : ℕ}
    {pool : SlotPool KeyHash} (h : serveVerb m slab.pool (.reserve count) = some (.reserved slots,pool)) :
    slots.length ≤ count ∧ ∀ s ∈ slots, s < slab.slotCount := by
  obtain ⟨n,hn,bound,hinv⟩ := hsound.pool
  have hfree : ∀ s ∈ slab.pool.available m.order m.now count, s < n := by
    rw [SlotPool.available]
    split_ifs
    · exact fun s hs => (reclaimExpired_inv m.order m.now hinv).free_lt hs
    · exact fun s hs => hinv.free_lt hs
  obtain ⟨next,hr,-⟩ := reserve_inv m.order m.now count hinv
  simp only [serveVerb, hr, Option.bind_eq_bind, Option.bind_some, Option.pure_def,
    Option.some.injEq, Prod.mk.injEq, KvResponse.reserved.injEq] at h
  obtain ⟨rfl,-⟩ := h
  refine ⟨List.length_take_le _ _,fun s hs => ?_⟩
  rcases List.mem_append.mp (List.mem_of_mem_take hs) with hs | hs
  · exact (hfree s hs).trans_le hn
  · exact (hinv.links.inside s hs).trans_le hn

theorem forall_mem_zipWith {α β γ : Type} (f : α → β → γ) (P : γ → Prop) (as : List α) (bs : List β) :
    (∀ c ∈ List.zipWith f as bs, P c) ↔ ∀ p ∈ as.zip bs, P (f p.1 p.2) := by
  rw [← List.map_uncurry_zip_eq_zipWith, List.forall_mem_map]
  rfl

theorem forall_mem_zip_snd {α β : Type} (P : β → Prop) (as : List α) (bs : List β)
    (h : bs.length ≤ as.length) : (∀ p ∈ as.zip bs, P p.2) ↔ ∀ b ∈ bs, P b := by
  have hsnd : (as.zip bs).map Prod.snd = bs := List.map_snd_zip h
  conv_rhs => rw [← hsnd, List.forall_mem_map]

/-- For checked strips over RDMA, the key and the strips fit when no arithmetic has wrapped. -/
theorem checked_fits_iff {size sum : ℕ} (hsize : size < 2^32) (hcap : sum % 2^64 ≤ payloadCap size) :
    keyBytes+sum ≤ size ↔ keyBytes ≤ size ∧ sum < 2^64 := by
  constructor
  · intro h
    omega
  · rintro ⟨hkey,hsum⟩
    rw [payloadCap_eq size hkey (by omega), Nat.mod_eq_of_lt hsum] at hcap
    omega

theorem slotWrites_safe_iff (hknows : Knows (some slab) view)
    (hsound : slab.Sound)
    (hchecks : putChecks view mrs node items = .ok ()) {slot : ℕ} (hslot : slot < slab.slotCount)
    {item : List UInt8 × Scatter} (hitem : item ∈ items) :
    (∀ w ∈ slotWrites view.mapped view.slotBytes slot (item.2.map Prod.snd), w.Inside slab slot) ↔
      view.Safe slab item.2 := by
  have hsize := hsound.size
  cases hknows with
  | unmapped =>
    constructor
    · intro h
      have := (h _ List.mem_cons_self (slot*0) le_rfl (by simp [keyBytes])).1
      simp [View.mapped] at this
    · rintro ⟨h,-⟩
      exact absurd h (by decide)
  | absent =>
    obtain ⟨_,h,-⟩ := putChecks_rdma hchecks
    cases h
  | mapped s hs =>
    cases hs
    exact slotWrites_inside_iff hslot true (by omega) _
  | present s hs =>
    cases hs
    obtain ⟨_,⟨⟩,hroom⟩ := putChecks_rdma hchecks
    have hcap := hroom item hitem
    have hfits := slotWrites_inside_iff hslot true (by omega) (item.2.map Prod.snd)
    exact hfits.trans (by simpa [View.Safe, total] using checked_fits_iff hsize hcap)

/-- The writes of a put that is not refused stay in the slots reserved for their keys, all in the
slab, exactly when each key's put is safe for the client. -/
theorem put_inside_iff (capacityBytes reserveTtl : ℕ) (hostBacked : Bool)
    (occurrences : List (Moment × Occurrence)) (sys : System)
    (hrun : (System.start capacityBytes reserveTtl hostBacked).run occurrences = some sys)
    (view : View) (hview : view ∈ sys.views) (slab : Slab) (hslab : sys.engine.slab = some slab)
    (items : List (List UInt8 × Scatter)) (m : Moment) (slots : List ℕ) (pool : SlotPool KeyHash)
    (hreserve : serveVerb m slab.pool (.reserve items.length) = some (.reserved slots,pool))
    (mrs : List ExternalMr) (node : ℕ) (writes : List (ℕ × List Write))
    (hput : put view mrs node items slots = .ok writes) :
    (∀ p ∈ writes, ∀ w ∈ p.2, w.Inside slab p.1) ↔ ∀ item ∈ items, view.Safe slab item.2 := by
  have hsound := run_sound occurrences (start_sound capacityBytes reserveTtl hostBacked) hrun
  have hknows := hsound.views view hview
  rw [hslab] at hknows
  obtain ⟨-,hslots⟩ := reserve_lt (hsound.slab slab hslab) hreserve
  obtain ⟨hchecks,hlen,rfl⟩ := put_ok hput
  rw [forall_mem_zipWith, ← forall_mem_zip_snd _ slots items hlen]
  refine forall_congr' fun p => forall_congr' fun hp => ?_
  obtain ⟨hslot,hitem⟩ := List.of_mem_zip (show (p.1,p.2) ∈ _ from hp)
  exact slotWrites_safe_iff hknows (hsound.slab slab hslab) hchecks (hslots _ hslot) hitem

def sampleKey : List UInt8 := List.replicate 54 7

def sampleMoment : Moment := ⟨.insertion _,0⟩

def sampleRegions : List ExternalMr := [⟨4096,100,1⟩]

def sampleItems : List (List UInt8 × Scatter) := [(sampleKey,[(4096,10)])]

def rdmaEngine (slotBytes : UInt32) : KvEngine := (KvEngine.new 640 60 false).attach slotBytes

def rdmaSample (slotBytes : UInt32) : System := ⟨rdmaEngine slotBytes,[.rdma (some slotBytes.toNat)]⟩

def sampleSlab (slotBytes : UInt32) : Slab := (KvEngine.new 640 60 false).rdmaSlab slotBytes

def samplePool (slab : Slab) : SlotPool KeyHash :=
  ((serveVerb sampleMoment slab.pool (.reserve 1)).map Prod.snd).getD slab.pool

theorem put_inside_rdma :
    (System.start 640 60 false).run [(sampleMoment,.rdmaAttach 64)] = some (rdmaSample 64) ∧
      put (.rdma (some 64)) sampleRegions 1 sampleItems [0] =
        .ok [(0,[⟨true,0,54⟩,⟨true,54,10⟩])] ∧
      ∀ p ∈ [(0,[(⟨true,0,54⟩ : Write),⟨true,54,10⟩])], ∀ w ∈ p.2, w.Inside (sampleSlab 64) p.1 :=
  ⟨rfl,by decide +kernel,
    (put_inside_iff 640 60 false [(sampleMoment,.rdmaAttach 64)] (rdmaSample 64) rfl (.rdma (some 64))
      (by simp [rdmaSample]) (sampleSlab 64) rfl sampleItems sampleMoment [0]
      (samplePool (sampleSlab 64)) rfl sampleRegions 1 _ (by decide +kernel)).mpr
      (by simp [sampleItems, View.Safe, total, sampleSlab, KvEngine.rdmaSlab, keyBytes])⟩

theorem not_inside {slab : Slab} {slot : ℕ} {w : Write} (x : ℕ) (hlo : w.start ≤ x)
    (hhi : x < w.start+w.len) (hout : (slot+1)*slab.slotBytes ≤ x) : ¬w.Inside slab slot := fun h =>
  absurd (h x hlo hhi).2.2.1 (by omega)

def hostSample (slotBytes : UInt32) : Slab :=
  (KvEngine.new 640 60 true).hostSlab slotBytes "/openlake_kv_1_0"

def shmEngine (slotBytes : UInt32) : KvEngine :=
  { KvEngine.new 640 60 true with slab := some (hostSample slotBytes) }

/-- With slots smaller than a key, or through shared memory with strips that do not fit, a put is
not refused and writes into the next slot. -/
theorem put_outside :
    (System.start 640 60 false).run [(sampleMoment,.rdmaAttach 16)] = some (rdmaSample 16) ∧
      (serveVerb sampleMoment (sampleSlab 16).pool (.reserve 1)).map Prod.fst =
        some (.reserved [0]) ∧
      put (.rdma (some 16)) sampleRegions 1 sampleItems [0] =
        .ok [(0,[⟨true,0,54⟩,⟨true,54,10⟩])] ∧
      ¬(⟨true,0,54⟩ : Write).Inside (sampleSlab 16) 0 ∧
    (System.start 640 60 true).run [(sampleMoment,.shmAttach (.ok "/openlake_kv_1_0") 60)] =
        some ⟨shmEngine 60,[.shm true 60]⟩ ∧
      (serveVerb sampleMoment (hostSample 60).pool (.reserve 1)).map Prod.fst =
        some (.reserved [0]) ∧
      put (.shm true 60) [] 1 sampleItems [0] = .ok [(0,[⟨true,0,54⟩,⟨true,54,10⟩])] ∧
      ¬(⟨true,54,10⟩ : Write).Inside (hostSample 60) 0 :=
  ⟨rfl,by decide +kernel,by decide +kernel,not_inside 53 (by decide) (by decide) (by decide),rfl,
    by decide +kernel,by decide +kernel,not_inside 63 (by decide) (by decide) (by decide)⟩

end Openlake.Kv
