import Openlake.Lib.ByteMemory
import Openlake.Lib.GuardedRuns
import Openlake.SlotChanges

/-!
# The key-value engine and its clients

One slab of slots behind a pool. The slab is made at the first attach that asks
for a slot size; its size comes from that client and the capacity. Requests that
come over TCP and the verbs that come over RDMA act on the pool in one way. The
clock, the order of the map of reservations and whether the shared memory could
be created (under which name, or why not) are inputs.

Any number of puts and gets run at once. A put reserves its slots in one request,
writes each slot step by step, the key before the strips, and commits all of them
in one request; when a write fails, or fewer slots are free than it needs, it
releases what it has. It may stop at any point: its client is gone, or a message
is lost. A get looks its keys up in one request and then copies. Over RDMA the
strips of a slot are read before its key, through shared memory after it, and
only if the key is the one asked for.

Each request, each write and each copy is one step. An action that cannot be
taken does nothing.
-/

set_option autoImplicit false

namespace Openlake.Kv
open Lib.Tally Slots

def keyBytes : ℕ := 54

def KeyHash : Type := { bytes : List UInt8 // bytes.length = keyBytes }
  deriving DecidableEq

def KeyHash.tryFrom (bytes : List UInt8) : Option KeyHash :=
  if h : bytes.length = keyBytes then some ⟨bytes,h⟩ else none

structure Moment where
  order : IterOrder (ℕ × ℕ)
  now : ℕ

def commitBytes (entries : List (ℕ × List UInt8)) (pool : SlotPool KeyHash) :
    Option (SlotPool KeyHash) :=
  entries.foldlM (fun pool entry =>
    match KeyHash.tryFrom entry.2 with
    | some hash => (pool.commit entry.1 hash).map Prod.snd
    | none => some pool) pool

def lookupBytes : List (List UInt8) → SlotPool KeyHash →
    Option (List (Option ℕ) × SlotPool KeyHash)
  | [],pool => some ([],pool)
  | key::keys,pool => do
    let (slot,pool) ← match KeyHash.tryFrom key with
      | some hash => pool.lookup hash
      | none => some (none,pool)
    let (slots,pool) ← lookupBytes keys pool
    return (slot::slots,pool)

def releaseAll (slots : List ℕ) (pool : SlotPool KeyHash) : Option (SlotPool KeyHash) :=
  slots.foldlM (fun pool slot => pool.release slot) pool

inductive Verb where
  | reserve (count : ℕ)
  | commit (entries : List (ℕ × List UInt8))
  | lookup (keys : List (List UInt8))
  | release (slots : List ℕ)
  | reset

inductive KvRequest where
  | attach (slotBytes : UInt32)
  | verb (verb : Verb)

inductive KvResponse where
  | attached (shmName : String) (slotBytes slotCount : ℕ)
  | reserved (slots : List ℕ)
  | looked (slots : List (Option ℕ))
  | ok
  | err (why : String)
  deriving DecidableEq

def serveVerb (m : Moment) (pool : SlotPool KeyHash) :
    Verb → Option (KvResponse × SlotPool KeyHash)
  | .reserve count => do
    let (slots,pool) ← pool.reserve m.order m.now count
    return (.reserved slots,pool)
  | .commit entries => do
    let pool ← commitBytes entries pool
    return (.ok,pool)
  | .lookup keys => do
    let (slots,pool) ← lookupBytes keys pool
    return (.looked slots,pool)
  | .release slots => do
    let pool ← releaseAll slots pool
    return (.ok,pool)
  | .reset => some (.ok,pool.clear)

structure Slab where
  slotBytes : ℕ
  slotCount : ℕ
  shmName : Option String
  pool : SlotPool KeyHash

structure KvEngine where
  slab : Option Slab
  capacityBytes : ℕ
  reserveTtl : ℕ
  hostBacked : Bool

def KvEngine.new (capacityBytes reserveTtl : ℕ) (hostBacked : Bool) : KvEngine :=
  ⟨none,capacityBytes,reserveTtl,hostBacked⟩

/-- As many slots as the capacity holds, but one at least. -/
def KvEngine.slots (e : KvEngine) (slotBytes : UInt32) : ℕ := max (e.capacityBytes/slotBytes.toNat) 1

-- The count of a host slab is cast to 32 bits before the memory is made.
def KvEngine.hostSlab (e : KvEngine) (slotBytes : UInt32) (name : String) : Slab :=
  let slotCount := e.slots slotBytes % 2^32
  ⟨slotBytes.toNat,slotCount,some name,SlotPool.new slotCount e.reserveTtl⟩

def KvEngine.rdmaSlab (e : KvEngine) (slotBytes : UInt32) : Slab :=
  ⟨slotBytes.toNat,e.slots slotBytes,none,SlotPool.new (e.slots slotBytes % 2^32) e.reserveTtl⟩

def noSlab : String := "no kv slab yet: call attach first for client discovery/exchange"

def KvEngine.handle (m : Moment) (e : KvEngine) (verb : Verb) : Option (KvResponse × KvEngine) :=
  match e.slab with
  | none => some (.err noSlab,e)
  | some slab => do
    let (resp,pool) ← serveVerb m slab.pool verb
    return (resp,{ e with slab := some { slab with pool := pool } })

def KvEngine.attached (e : KvEngine) : KvResponse :=
  match e.slab with
  | none => .attached "" 0 0
  | some slab =>
    match slab.shmName with
    | some name => .attached name slab.slotBytes (slab.slotCount % 2^32)
    | none => .err "slab is not shm-backed"

def KvEngine.serveTcp (m : Moment) (created : Except String String) (e : KvEngine) :
    KvRequest → Option (KvResponse × KvEngine)
  | .attach slotBytes =>
    if e.hostBacked ∧ 0 < slotBytes.toNat ∧ e.slab.isNone then
      match created with
      | .ok name =>
        let e := { e with slab := some (e.hostSlab slotBytes name) }
        some (e.attached,e)
      | .error why => some (.err ("kv slab create: " ++ why),e)
    else some (e.attached,e)
  | .verb verb => e.handle m verb

/-- The attach of the RDMA plane, for a client the backend admits. -/
def KvEngine.attach (e : KvEngine) (slotBytes : UInt32) : KvEngine :=
  if 0 < slotBytes.toNat ∧ e.slab.isNone then { e with slab := some (e.rdmaSlab slotBytes) } else e

section Verbs

variable {slotCount : ℕ} {pool next : SlotPool KeyHash} {bound : List ℕ}

def Sound (slotCount : ℕ) (pool : SlotPool KeyHash) : Prop := ∃ bound, Inv slotCount pool bound

theorem commitBytes_sound (entries : List (ℕ × List UInt8)) (h : Sound slotCount pool) :
    ∃ next, commitBytes entries pool = some next ∧ Sound slotCount next := by
  induction entries generalizing pool with
  | nil => exact ⟨pool,rfl,h⟩
  | cons entry entries ih =>
    obtain ⟨bound,hinv⟩ := h
    rw [commitBytes, List.foldlM_cons]
    rcases hk : KeyHash.tryFrom entry.2 with _ | k
    · exact ih ⟨bound,hinv⟩
    · rcases commit_inv entry.1 k hinv with hc | ⟨next,kept,hc,-,-,hinv'⟩
      · simp only [hc]
        exact ih ⟨bound,hinv⟩
      · simp only [hc]
        exact ih ⟨_,hinv'⟩

theorem lookupBytes_sound (keys : List (List UInt8)) (h : Sound slotCount pool) :
    ∃ slots next, lookupBytes keys pool = some (slots,next) ∧ Sound slotCount next := by
  induction keys generalizing pool with
  | nil => exact ⟨[],pool,rfl,h⟩
  | cons key keys ih =>
    obtain ⟨bound,hinv⟩ := h
    rcases hk : KeyHash.tryFrom key with _ | k
    · obtain ⟨slots,next,hl,hnext⟩ := ih ⟨bound,hinv⟩
      exact ⟨none::slots,next,by simp [lookupBytes, hk, hl],hnext⟩
    · rcases lookup_inv k hinv with hc | ⟨s,pool',kept,hc,-,-,hinv'⟩
      · obtain ⟨slots,next,hl,hnext⟩ := ih ⟨bound,hinv⟩
        exact ⟨none::slots,next,by simp [lookupBytes, hk, hc, hl],hnext⟩
      · obtain ⟨slots,next,hl,hnext⟩ := ih ⟨_,hinv'⟩
        exact ⟨some s::slots,next,by simp [lookupBytes, hk, hc, hl],hnext⟩

theorem releaseAll_sound (slots : List ℕ) (h : Sound slotCount pool) :
    ∃ next, releaseAll slots pool = some next ∧ Sound slotCount next := by
  induction slots generalizing pool with
  | nil => exact ⟨pool,rfl,h⟩
  | cons s slots ih =>
    obtain ⟨bound,hinv⟩ := h
    obtain ⟨next,kept,hr,-,hinv'⟩ := release_inv s hinv
    rw [releaseAll, List.foldlM_cons, hr]
    exact ih ⟨_,hinv'⟩

theorem tryFrom_bytes (k : KeyHash) : KeyHash.tryFrom k.1 = some k := dif_pos k.2

theorem commitBytes_changes (entries : List (ℕ × KeyHash))
    (h : commitBytes (entries.map (fun e => (e.1,e.2.1))) pool = some next) :
    Changes pool next (entries.map Prod.fst) entries := by
  induction entries generalizing pool with
  | nil =>
    cases h
    exact .refl _
  | cons entry entries ih =>
    rw [commitBytes, List.map_cons, List.foldlM_cons, tryFrom_bytes, Option.bind_eq_bind,
      Option.bind_eq_some_iff] at h
    obtain ⟨_,hc,h⟩ := h
    obtain ⟨⟨accepted,mid⟩,hcommit,rfl⟩ := Option.map_eq_some_iff.mp hc
    exact (commit_changes hcommit).trans (ih h)

theorem releaseAll_changes (slots : List ℕ) (h : releaseAll slots pool = some next) :
    Changes pool next slots [] := by
  induction slots generalizing pool with
  | nil =>
    cases h
    exact .refl _
  | cons s slots ih =>
    rw [releaseAll, List.foldlM_cons, Option.bind_eq_bind, Option.bind_eq_some_iff] at h
    obtain ⟨mid,hr,h⟩ := h
    exact (release_changes hr).trans (ih h)

theorem lookupBytes_changes (keys : List KeyHash) {slots : List (Option ℕ)}
    (h : lookupBytes (keys.map (fun k => k.1)) pool = some (slots,next)) :
    Changes pool next [] [] ∧ slots = keys.map pool.byHash ∧ next.byHash = pool.byHash := by
  induction keys generalizing pool slots with
  | nil =>
    cases h
    exact ⟨.refl _,rfl,rfl⟩
  | cons key keys ih =>
    simp only [List.map_cons, lookupBytes, tryFrom_bytes, Option.bind_eq_bind, Option.pure_def,
      Option.bind_eq_some_iff, Option.some.injEq, Prod.mk.injEq] at h
    obtain ⟨⟨found,mid⟩,hl,⟨rest,last⟩,hrest,rfl,rfl⟩ := h
    obtain ⟨hc,hfound,hhash⟩ := lookup_changes hl
    obtain ⟨hc',hslots,hhash'⟩ := ih hrest
    refine ⟨hc.trans hc',?_,hhash'.trans hhash⟩
    rw [List.map_cons, hslots, hfound, hhash]

/-- No request panics, and the pool stays well formed. -/
theorem serveVerb_sound (m : Moment) (verb : Verb) (h : Sound slotCount pool) :
    ∃ resp next, serveVerb m pool verb = some (resp,next) ∧ Sound slotCount next := by
  cases verb with
  | reserve count =>
    obtain ⟨bound,hinv⟩ := h
    obtain ⟨next,hr,hinv'⟩ := reserve_inv m.order m.now count hinv
    exact ⟨.reserved _,next,by simp only [serveVerb, hr]; rfl,_,hinv'⟩
  | commit entries =>
    obtain ⟨next,hc,hnext⟩ := commitBytes_sound entries h
    exact ⟨.ok,next,by simp [serveVerb, hc],hnext⟩
  | lookup keys =>
    obtain ⟨slots,next,hl,hnext⟩ := lookupBytes_sound keys h
    exact ⟨.looked slots,next,by simp [serveVerb, hl],hnext⟩
  | release slots =>
    obtain ⟨next,hr,hnext⟩ := releaseAll_sound slots h
    exact ⟨.ok,next,by simp [serveVerb, hr],hnext⟩
  | reset =>
    obtain ⟨bound,hinv⟩ := h
    exact ⟨.ok,_,rfl,[],clear_inv hinv⟩

end Verbs

open Lib.ByteMemory

inductive Transport where
  | rdma
  | shm
  deriving DecidableEq

structure Chunk where
  offset : ℕ
  bytes : List UInt8

def stripChunks : ℕ → List (List UInt8) → List Chunk
  | _,[] => []
  | off,strip::strips => ⟨off,strip⟩::stripChunks (off+strip.length) strips

def putChunks (key : KeyHash) (strips : List (List UInt8)) : List Chunk :=
  ⟨0,key.1⟩::stripChunks keyBytes strips

structure Writing where
  slot : ℕ
  key : KeyHash
  todo : List Chunk

structure Put where
  items : List Writing
  failing : Bool

def Put.start (slots : List ℕ) (items : List (KeyHash × List (List UInt8))) : Put where
  items := List.zipWith (fun slot item => ⟨slot,item.1,putChunks item.1 item.2⟩) slots items
  failing := slots.length < items.length

def Put.slots (p : Put) : List ℕ := p.items.map Writing.slot

def Put.entries (p : Put) : List (ℕ × List UInt8) := p.items.map (fun x => (x.slot,x.key.1))

inductive Fetch where
  | header
  | strip (offset len : ℕ)

def stripFetches : ℕ → List ℕ → List Fetch
  | _,[] => []
  | off,len::lens => .strip off len::stripFetches (off+len) lens

def fetches : Transport → List ℕ → List Fetch
  | .rdma,lens => stripFetches keyBytes lens ++ [.header]
  | .shm,lens => .header::stripFetches keyBytes lens

/-- `matched` tells whether the key in the slot was the one asked for, once it has been read. -/
structure Reading where
  key : KeyHash
  slot : ℕ
  todo : List Fetch
  copied : List UInt8
  matched : Option Bool

def startReadings (t : Transport) (items : List (KeyHash × List ℕ)) (slots : List (Option ℕ)) :
    List Reading :=
  (items.zip slots).filterMap (fun p => p.2.map (fun slot => ⟨p.1.1,slot,fetches t p.1.2,[],none⟩))

def Reading.fetch (slotBytes : ℕ) (mem : ℕ → UInt8) (r : Reading) : Option Reading :=
  match r.todo with
  | [] => none
  | .header::todo =>
    if read mem (r.slot*slotBytes) keyBytes = r.key.1 then
      some { r with matched := some true, todo := todo }
    else some { r with matched := some false, todo := [] }
  | .strip off len::todo =>
    some { r with copied := r.copied ++ read mem (r.slot*slotBytes+off) len, todo := todo }

def Reading.Hit (r : Reading) : Prop := r.todo = [] ∧ r.matched = some true

structure World where
  pool : SlotPool KeyHash
  mem : ℕ → UInt8
  writer : ℕ → Option KeyHash
  puts : ℕ → Option Put
  gets : ℕ → Option (List Reading)

def World.start (slotCount : UInt32) (reserveTtl : ℕ) (mem : ℕ → UInt8) : World where
  pool := SlotPool.new slotCount.toNat reserveTtl
  mem := mem
  writer _ := none
  puts _ := none
  gets _ := none

inductive Action where
  | reserve (id : ℕ) (m : Moment) (items : List (KeyHash × List (List UInt8)))
  | write (id i : ℕ)
  | fail (id : ℕ)
  | commit (id : ℕ) (m : Moment)
  | release (id : ℕ) (m : Moment)
  | stop (id : ℕ)
  | lookup (id : ℕ) (m : Moment) (items : List (KeyHash × List ℕ))
  | fetch (id i : ℕ)
  | reset (m : Moment)

section Steps

variable (t : Transport) (slotBytes : ℕ)

def World.setPut (w : World) (id : ℕ) (p : Option Put) : World :=
  { w with puts := Function.update w.puts id p }

theorem setPut_self (w : World) (id : ℕ) (p : Option Put) : (w.setPut id p).puts id = p :=
  Function.update_self ..

theorem setPut_other (w : World) {id i : ℕ} (p : Option Put) (h : i ≠ id) :
    (w.setPut id p).puts i = w.puts i := Function.update_of_ne h ..

def World.store (w : World) (x : Writing) (c : Chunk) : World :=
  { w with mem := Lib.ByteMemory.write w.mem (x.slot*slotBytes+c.offset) c.bytes
           writer := Function.update w.writer x.slot (some x.key) }

theorem store_writer (w : World) (x : Writing) (c : Chunk) :
    (w.store slotBytes x c).writer = Function.update w.writer x.slot (some x.key) := rfl

def World.step (w : World) : Action → Option World
  | .reserve id m items => do
    if (w.puts id).isSome then none
    match ← serveVerb m w.pool (.reserve items.length) with
    | (.reserved slots,pool) => some ({ w with pool := pool }.setPut id (some (.start slots items)))
    | _ => none
  | .write id i => do
    let p ← w.puts id
    let x ← p.items[i]?
    match x.todo with
    | [] => none
    | c::todo =>
      if p.failing then none
      else some ((w.store slotBytes x c).setPut id
        (some { p with items := p.items.set i { x with todo := todo } }))
  | .fail id => do
    let p ← w.puts id
    return w.setPut id (some { p with failing := true })
  | .commit id m => do
    let p ← w.puts id
    if p.failing = false ∧ p.items.all (fun x => x.todo.isEmpty) then
      let (_,pool) ← serveVerb m w.pool (.commit p.entries)
      return { w with pool := pool }.setPut id none
    else none
  | .release id m => do
    let p ← w.puts id
    if p.failing then
      let (_,pool) ← serveVerb m w.pool (.release p.slots)
      return { w with pool := pool }.setPut id none
    else none
  | .stop id => some (w.setPut id none)
  | .lookup id m items => do
    if (w.gets id).isSome then none
    match ← serveVerb m w.pool (.lookup (items.map (fun item => item.1.1))) with
    | (.looked slots,pool) =>
      some { w with pool := pool
                    gets := Function.update w.gets id (some (startReadings t items slots)) }
    | _ => none
  | .fetch id i => do
    let g ← w.gets id
    let r ← g[i]?
    let r' ← r.fetch slotBytes w.mem
    return { w with gets := Function.update w.gets id (some (g.set i r')) }
  | .reset m => do
    let (_,pool) ← serveVerb m w.pool .reset
    return { w with pool := pool }

def World.next (w : World) (a : Action) : World := (w.step t slotBytes a).getD w

/-- What an action does, if anything. -/
inductive Effect (w : World) : Action → World → Prop
  | idle (a : Action) : Effect w a w
  | reserve (id : ℕ) (m : Moment) (items : List (KeyHash × List (List UInt8))) (slots : List ℕ)
      (pool : SlotPool KeyHash) (hid : w.puts id = none)
      (hr : w.pool.reserve m.order m.now items.length = some (slots,pool)) :
      Effect w (.reserve id m items) ({ w with pool := pool }.setPut id (some (.start slots items)))
  | write (id i : ℕ) (p : Put) (x : Writing) (c : Chunk) (todo : List Chunk)
      (hp : w.puts id = some p) (hx : p.items[i]? = some x) (htodo : x.todo = c::todo) :
      Effect w (.write id i) ((w.store slotBytes x c).setPut id
        (some { p with items := p.items.set i { x with todo := todo } }))
  | fail (id : ℕ) (p : Put) (hp : w.puts id = some p) :
      Effect w (.fail id) (w.setPut id (some { p with failing := true }))
  | commit (id : ℕ) (m : Moment) (p : Put) (pool : SlotPool KeyHash) (hp : w.puts id = some p)
      (hdone : ∀ x ∈ p.items, x.todo = []) (hc : commitBytes p.entries w.pool = some pool) :
      Effect w (.commit id m) ({ w with pool := pool }.setPut id none)
  | release (id : ℕ) (m : Moment) (p : Put) (pool : SlotPool KeyHash) (hp : w.puts id = some p)
      (hr : releaseAll p.slots w.pool = some pool) :
      Effect w (.release id m) ({ w with pool := pool }.setPut id none)
  | stop (id : ℕ) : Effect w (.stop id) (w.setPut id none)
  | lookup (id : ℕ) (m : Moment) (items : List (KeyHash × List ℕ)) (slots : List (Option ℕ))
      (pool : SlotPool KeyHash)
      (hl : lookupBytes (items.map (fun item => item.1.1)) w.pool = some (slots,pool)) :
      Effect w (.lookup id m items)
        { w with pool := pool
                 gets := Function.update w.gets id (some (startReadings t items slots)) }
  | fetch (id i : ℕ) (g : List Reading) (r r' : Reading) (hg : w.gets id = some g)
      (hr : g[i]? = some r) (hf : r.fetch slotBytes w.mem = some r') :
      Effect w (.fetch id i) { w with gets := Function.update w.gets id (some (g.set i r')) }
  | reset (m : Moment) : Effect w (.reset m) { w with pool := w.pool.clear }

theorem next_effect (w : World) (a : Action) : Effect t slotBytes w a (w.next t slotBytes a) := by
  rcases hs : w.step t slotBytes a with _ | w'
  · rw [World.next, hs]
    exact .idle a
  rw [World.next, hs, Option.getD_some]
  cases a with
  | reserve id m items =>
    rcases hid : w.puts id with _ | p
    · simp only [World.step, hid, Option.isSome_none, Bool.false_eq_true, if_false, serveVerb,
        Option.bind_eq_bind, Option.pure_def, Option.bind_eq_some_iff] at hs
      obtain ⟨_,⟨⟨slots,pool⟩,hr,⟨⟩⟩,hs⟩ := hs
      cases hs
      exact .reserve id m items slots pool hid hr
    · simp [World.step, hid] at hs
  | write id i =>
    simp only [World.step, Option.bind_eq_bind, Option.bind_eq_some_iff] at hs
    obtain ⟨p,hp,x,hx,hs⟩ := hs
    rcases htodo : x.todo with _ | ⟨c,todo⟩
    · simp [htodo] at hs
    · simp only [htodo] at hs
      split_ifs at hs
      cases hs
      exact .write id i p x c todo hp hx htodo
  | fail id =>
    simp only [World.step, Option.bind_eq_bind, Option.bind_eq_some_iff] at hs
    obtain ⟨p,hp,hs⟩ := hs
    cases hs
    exact .fail id p hp
  | commit id m =>
    simp only [World.step, Option.bind_eq_bind, Option.bind_eq_some_iff] at hs
    obtain ⟨p,hp,hs⟩ := hs
    split_ifs at hs with hdone
    simp only [serveVerb, Option.bind_eq_bind, Option.pure_def, Option.bind_eq_some_iff] at hs
    obtain ⟨_,⟨pool,hc,⟨⟩⟩,hs⟩ := hs
    cases hs
    exact .commit id m p pool hp (by simpa using hdone.2) hc
  | release id m =>
    simp only [World.step, Option.bind_eq_bind, Option.bind_eq_some_iff] at hs
    obtain ⟨p,hp,hs⟩ := hs
    split_ifs at hs
    simp only [serveVerb, Option.bind_eq_bind, Option.pure_def, Option.bind_eq_some_iff] at hs
    obtain ⟨_,⟨pool,hr,⟨⟩⟩,hs⟩ := hs
    cases hs
    exact .release id m p pool hp hr
  | stop id =>
    cases hs
    exact .stop id
  | lookup id m items =>
    rcases hid : w.gets id with _ | g
    · simp only [World.step, hid, Option.isSome_none, Bool.false_eq_true, if_false, serveVerb,
        Option.bind_eq_bind, Option.pure_def, Option.bind_eq_some_iff] at hs
      obtain ⟨_,⟨⟨slots,pool⟩,hl,⟨⟩⟩,hs⟩ := hs
      cases hs
      exact .lookup id m items slots pool hl
    · simp [World.step, hid] at hs
  | fetch id i =>
    simp only [World.step, Option.bind_eq_bind, Option.bind_eq_some_iff] at hs
    obtain ⟨g,hg,r,hr,r',hf,hs⟩ := hs
    cases hs
    exact .fetch id i g r r' hg hr hf
  | reset m =>
    cases hs
    exact .reset m

end Steps

end Openlake.Kv
