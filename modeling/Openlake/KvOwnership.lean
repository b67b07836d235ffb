import Openlake.KvEngine

/-!
# Who owns a slot, and what a get copies

As long as no reservation expires under a put that is still at work, and no reset
meets one, every slot of such a put is reserved and is its own. Then a slot that
a lookup can return was last written for its key.

Memory is flat, and slots do not meet as long as payloads fit. Nobody keeps a slot
from being filled again while a get copies it, so the key in it is all a get goes
by.
-/

set_option autoImplicit false

namespace Openlake.Kv
open Lib.ByteMemory Lib.GuardedRuns Slots

/-- No put at work loses a reservation, by expiry or by a reset. -/
def Orderly (w : World) : Action → Prop
  | .reserve _ m items => ∀ id p, w.puts id = some p →
      ∀ s ∈ p.slots, s ∉ w.pool.expired m.now items.length
  | .reset _ => ∀ id, w.puts id = none
  | _ => True

structure Owned (slotCount : ℕ) (w : World) : Prop where
  pool : Sound slotCount w.pool
  held : ∀ id p, w.puts id = some p → ∀ s ∈ p.slots, s ∈ w.pool.reserved
  once : ∀ id p, w.puts id = some p → p.slots.Nodup
  apart : ∀ id p id' p', w.puts id = some p → w.puts id' = some p' → id ≠ id' →
    ∀ s ∈ p.slots, s ∉ p'.slots
  written : ∀ id p, w.puts id = some p → ∀ x ∈ p.items, x.todo = [] →
    w.writer x.slot = some x.key
  bindings : ∀ s k, w.pool.bySlot s = some k → w.writer s = some k

theorem start_owned (slotCount : UInt32) (reserveTtl : ℕ) (mem : ℕ → UInt8) :
    Owned slotCount.toNat (World.start slotCount reserveTtl mem) where
  pool := ⟨[],new_inv _ _ (by have := slotCount.toNat_lt; simp only [nilSlot]; omega)⟩
  held := by simp [World.start]
  once := by simp [World.start]
  apart := by simp [World.start]
  written := by simp [World.start]
  bindings := by simp [World.start, SlotPool.new]

section Keep

variable {slotCount : ℕ} {w : World} (h : Owned slotCount w)

include h

variable {id : ℕ}

/-- A put that ends, or changes nothing but its own progress, leaves the others as they are. -/
theorem Owned.setPut {q : Option Put}
    (hslots : ∀ p', q = some p' → ∃ p, w.puts id = some p ∧ p'.slots = p.slots)
    (hwritten : ∀ p', q = some p' → ∀ x ∈ p'.items, x.todo = [] → w.writer x.slot = some x.key) :
    Owned slotCount (w.setPut id q) := by
  have hput (i : ℕ) (p : Put) (hp : (w.setPut id q).puts i = some p) :
      ∃ p₀, w.puts i = some p₀ ∧ p.slots = p₀.slots := by
    by_cases hi : i = id
    · subst hi
      exact hslots p (setPut_self w i q ▸ hp)
    · exact ⟨p,setPut_other w q hi ▸ hp,rfl⟩
  refine ⟨h.pool,fun i p hp s hs => ?_,fun i p hp => ?_,fun i p j p' hp hp' hij s hs => ?_,
    fun i p hp x hx htodo => ?_,h.bindings⟩
  · obtain ⟨p₀,hp₀,heq⟩ := hput i p hp
    exact h.held i p₀ hp₀ s (heq ▸ hs)
  · obtain ⟨p₀,hp₀,heq⟩ := hput i p hp
    exact heq ▸ h.once i p₀ hp₀
  · obtain ⟨p₀,hp₀,heq⟩ := hput i p hp
    obtain ⟨p₁,hp₁,heq'⟩ := hput j p' hp'
    rw [heq']
    exact h.apart i p₀ j p₁ hp₀ hp₁ hij s (heq ▸ hs)
  · by_cases hi : i = id
    · subst hi
      exact hwritten p (setPut_self w i q ▸ hp) x hx htodo
    · exact h.written i p (setPut_other w q hi ▸ hp) x hx htodo

theorem Owned.drop (id : ℕ) : Owned slotCount (w.setPut id none) :=
  h.setPut (by simp) (by simp)

variable {p : Put}

theorem Owned.bound_free {s : ℕ} {k : KeyHash} (hk : w.pool.bySlot s = some k)
    (hp : w.puts id = some p) : s ∉ p.slots := by
  intro hs
  obtain ⟨bound,hinv⟩ := h.pool
  exact (hinv.reserved_not (h.held id p hp s hs)).2 ((hinv.binding s).mp (by rw [hk]; rfl))

/-- A call that ends only reservations nobody holds keeps the order, if what it binds has been
written for its key. -/
theorem Owned.call {pool : SlotPool KeyHash} {gone : List ℕ} {made : List (ℕ × KeyHash)}
    (hsound : Sound slotCount pool) (hchanges : Changes w.pool pool gone made)
    (hgone : ∀ id p, w.puts id = some p → ∀ s ∈ p.slots, s ∉ gone)
    (hmade : ∀ s k, (s,k) ∈ made → w.writer s = some k) :
    Owned slotCount { w with pool := pool } where
  pool := hsound
  held id p hp s hs := hchanges.reserved s (h.held id p hp s hs) (hgone id p hp s hs)
  once := h.once
  apart := h.apart
  written := h.written
  bindings s k hk := by
    rcases hchanges.bindings s k hk with hk | hk
    · exact h.bindings s k hk
    · exact hmade s k hk

theorem Owned.begin {q : Put} (hid : w.puts id = none)
    (hheld : ∀ s ∈ q.slots, s ∈ w.pool.reserved) (honce : q.slots.Nodup)
    (hapart : ∀ i p, w.puts i = some p → ∀ s ∈ p.slots, s ∉ q.slots)
    (htodo : ∀ x ∈ q.items, x.todo ≠ []) : Owned slotCount (w.setPut id (some q)) := by
  have hput (i : ℕ) (p : Put) (hp : (w.setPut id (some q)).puts i = some p) :
      (i = id ∧ p = q) ∨ (i ≠ id ∧ w.puts i = some p) := by
    by_cases hi : i = id
    · subst hi
      rw [setPut_self, Option.some.injEq] at hp
      exact .inl ⟨rfl,hp.symm⟩
    · exact .inr ⟨hi,setPut_other w (some q) hi ▸ hp⟩
  refine ⟨h.pool,fun i p hp => ?_,fun i p hp => ?_,fun i p j p' hp hp' hij s hs => ?_,
    fun i p hp x hx hx' => ?_,h.bindings⟩
  · rcases hput i p hp with ⟨rfl,rfl⟩ | ⟨-,hp⟩
    · exact hheld
    · exact h.held i p hp
  · rcases hput i p hp with ⟨rfl,rfl⟩ | ⟨-,hp⟩
    · exact honce
    · exact h.once i p hp
  · rcases hput i p hp with ⟨rfl,rfl⟩ | ⟨-,hp⟩ <;> rcases hput j p' hp' with ⟨rfl,rfl⟩ | ⟨-,hp'⟩
    · exact absurd rfl hij
    · exact fun hs' => hapart j p' hp' s hs' hs
    · rename_i hi
      exact hapart i p hi s hs
    · exact h.apart i p j p' hp hp' hij s hs
  · rcases hput i p hp with ⟨rfl,rfl⟩ | ⟨-,hp⟩
    · exact absurd hx' (htodo x hx)
    · exact h.written i p hp x hx hx'

theorem Owned.store {slotBytes id : ℕ} {x : Writing} {c : Chunk} (hp : w.puts id = some p)
    (hx : x ∈ p.items) : Owned slotCount (w.store slotBytes x c) := by
  have hslot : x.slot ∈ p.slots := List.mem_map_of_mem hx
  refine ⟨h.pool,h.held,h.once,h.apart,fun i q hq y hy htodo => ?_,fun s k hk => ?_⟩
  · by_cases hslots : y.slot = x.slot
    · have hi : i = id := by
        by_contra hi
        exact h.apart i q id p hq hp hi y.slot (List.mem_map_of_mem hy) (hslots ▸ hslot)
      subst hi
      cases hp.symm.trans hq
      have hyx : y = x := List.inj_on_of_nodup_map (h.once i p hp) hy hx hslots
      simp [World.store, hyx]
    · rw [store_writer, Function.update_of_ne hslots]
      exact h.written i q hq y hy htodo
  · have hne : s ≠ x.slot := fun hs => h.bound_free hk hp (hs ▸ hslot)
    rw [store_writer, Function.update_of_ne hne]
    exact h.bindings s k hk

end Keep

theorem slots_start (slots : List ℕ) (items : List (KeyHash × List (List UInt8)))
    (h : slots.length ≤ items.length) : (Put.start slots items).slots = slots := by
  have hfst : (slots.zip items).map Prod.fst = slots := List.map_fst_zip h
  conv_rhs => rw [← hfst]
  simp [Put.slots, Put.start, ← List.map_uncurry_zip_eq_zipWith, Function.comp_def, Function.uncurry]

variable {slots : List ℕ}

theorem mem_start {items : List (KeyHash × List (List UInt8))} {x : Writing}
    (hx : x ∈ (Put.start slots items).items) :
    ∃ item ∈ items, x.key = item.1 ∧ x.todo = putChunks item.1 item.2 := by
  simp only [Put.start, ← List.map_uncurry_zip_eq_zipWith, List.mem_map] at hx
  obtain ⟨⟨slot,item⟩,hmem,rfl⟩ := hx
  exact ⟨item,(List.of_mem_zip hmem).2,rfl,rfl⟩

variable {slotCount : ℕ}

theorem length_reserve {pool next : SlotPool KeyHash} (h : Sound slotCount pool)
    {m : Moment} {count : ℕ}
    (hr : pool.reserve m.order m.now count = some (slots,next)) : slots.length ≤ count := by
  obtain ⟨bound,hinv⟩ := h
  obtain ⟨_,hr',-⟩ := reserve_inv m.order m.now count hinv
  cases hr.symm.trans hr'
  exact List.length_take_le _ _

theorem slots_set (p : Put) (i : ℕ) (x : Writing) (todo : List Chunk) (hx : p.items[i]? = some x) :
    ({ p with items := p.items.set i { x with todo := todo } } : Put).slots = p.slots := by
  apply List.ext_getElem?
  intro j
  rw [Put.slots, Put.slots, List.getElem?_map, List.getElem?_map, List.getElem?_set]
  split_ifs with hij hi
  · rw [← hij, hx]
    rfl
  · rw [← hij, List.getElem?_eq_none (by omega)]
  · rfl

theorem entries_eq (p : Put) : p.entries = (p.items.map (fun x => (x.slot,x.key))).map
    (fun e => (e.1,e.2.1)) := by
  simp [Put.entries, Function.comp_def]

theorem keys_eq {α : Type} (items : List (KeyHash × α)) :
    items.map (fun item => item.1.1) = (items.map Prod.fst).map (fun k => k.1) := by simp

/-- When a put ends, a call that takes only its reservations leaves the others in order. -/
theorem Owned.finish {w : World} (h : Owned slotCount w) {id : ℕ} {p : Put}
    (hp : w.puts id = some p) {pool : SlotPool KeyHash} {made : List (ℕ × KeyHash)}
    (hsound : Sound slotCount pool) (hchanges : Changes w.pool pool p.slots made)
    (hmade : ∀ s k, (s,k) ∈ made → w.writer s = some k) :
    Owned slotCount ({ w with pool := pool }.setPut id none) := by
  refine (h.drop id).call hsound hchanges (fun i q hq s hs => ?_) hmade
  have hi : i ≠ id := by
    rintro rfl
    rw [setPut_self] at hq
    cases hq
  exact h.apart i q id p (setPut_other w none hi ▸ hq) hp hi s hs

theorem effect_owned {t : Transport} {slotBytes slotCount : ℕ} {w w' : World} {a : Action}
    (h : Owned slotCount w) (ha : Orderly w a) (he : Effect t slotBytes w a w') :
    Owned slotCount w' := by
  cases he with
  | idle a => exact h
  | reserve id m items slots pool hid hr =>
    obtain ⟨bound,hinv⟩ := h.pool
    obtain ⟨hchanges,hout,hnodup,hlive⟩ := reserve_changes hinv hr
    obtain ⟨next,hr',hnext⟩ := reserve_inv m.order m.now items.length hinv
    cases hr.symm.trans hr'
    have hcall := h.call ⟨_,hnext⟩ hchanges ha (by simp)
    have hslots := slots_start _ items (length_reserve h.pool hr)
    refine hcall.begin hid ?_ ?_ (fun i p hp s hs => ?_) (fun x hx => ?_)
    · rwa [hslots]
    · rwa [hslots]
    · rw [hslots]
      exact hlive s (h.held i p hp s hs) (ha i p hp s hs)
    · obtain ⟨item,-,-,htodo⟩ := mem_start hx
      simp [htodo, putChunks]
  | write id i p x c todo hp hx htodo =>
    have hmem : x ∈ p.items := List.mem_of_getElem? hx
    have hstore : Owned slotCount (w.store slotBytes x c) := h.store hp hmem
    refine hstore.setPut (fun p' hp' => ⟨p,hp,?_⟩) (fun p' hp' y hy hdone => ?_)
    · cases hp'
      exact slots_set p i x todo hx
    · cases hp'
      rcases List.mem_or_eq_of_mem_set hy with hy | rfl
      · exact hstore.written id p hp y hy hdone
      · exact Function.update_self ..
  | fail id p hp =>
    refine h.setPut (fun p' hp' => ⟨p,hp,?_⟩) (fun p' hp' => ?_)
    · cases hp'
      rfl
    · cases hp'
      exact h.written id p hp
  | commit id m p pool hp hdone hc =>
    obtain ⟨next,hc',hsound⟩ := commitBytes_sound p.entries h.pool
    cases hc.symm.trans hc'
    rw [entries_eq] at hc
    have hchanges := commitBytes_changes _ hc
    rw [List.map_map] at hchanges
    refine h.finish hp hsound hchanges fun s k hk => ?_
    obtain ⟨x,hx,heq⟩ := List.mem_map.mp hk
    cases heq
    exact h.written id p hp x hx (hdone x hx)
  | release id m p pool hp hr =>
    obtain ⟨next,hr',hsound⟩ := releaseAll_sound p.slots h.pool
    cases hr.symm.trans hr'
    exact h.finish hp hsound (releaseAll_changes p.slots hr) (by simp)
  | stop id => exact h.drop id
  | lookup id m items slots pool hl =>
    obtain ⟨slots',next,hl',hsound⟩ := lookupBytes_sound (items.map (fun item => item.1.1)) h.pool
    cases hl.symm.trans hl'
    rw [keys_eq] at hl
    have hcall := h.call hsound (lookupBytes_changes _ hl).1 (by simp) (by simp)
    exact ⟨hcall.pool,hcall.held,hcall.once,hcall.apart,hcall.written,hcall.bindings⟩
  | fetch id i g r r' hg hr hf => exact ⟨h.pool,h.held,h.once,h.apart,h.written,h.bindings⟩
  | reset m =>
    obtain ⟨bound,hinv⟩ := h.pool
    have hnone (id : ℕ) (p : Put) : w.puts id ≠ some p := by simp [ha id]
    exact ⟨⟨[],clear_inv hinv⟩,fun i p hp => absurd hp (hnone i p),h.once,h.apart,h.written,
      by simp [SlotPool.clear, SlotPool.new]⟩

/-- In every run whose steps are orderly: the slot that a lookup of a key returns was last written
for that key, and no put at work has it. -/
theorem lookup_owned (t : Transport) (slotBytes : ℕ) (slotCount : UInt32) (reserveTtl : ℕ)
    (mem : ℕ → UInt8) (actions : List Action)
    (horderly : Always (World.next t slotBytes) Orderly (.start slotCount reserveTtl mem) actions)
    (w : World) (hw : w = after (World.next t slotBytes) (.start slotCount reserveTtl mem) actions)
    (k : KeyHash) (s : ℕ) (pool : SlotPool KeyHash) (hk : w.pool.lookup k = some (some s,pool)) :
    w.writer s = some k ∧ ∀ id p, w.puts id = some p → s ∉ p.slots := by
  have howned : Owned slotCount.toNat w := hw ▸ horderly.invariant _
    (fun w a h ha => effect_owned h ha (next_effect t slotBytes w a))
    (start_owned slotCount reserveTtl mem)
  obtain ⟨bound,hinv⟩ := howned.pool
  obtain ⟨-,hfound,-⟩ := lookup_changes hk
  have hs : w.pool.bySlot s = some k := (hinv.inverse s k).mpr hfound.symm
  exact ⟨howned.bindings s k hs,fun id p hp => howned.bound_free hs hp⟩

def keyOf (b : UInt8) : KeyHash := ⟨List.replicate 54 b,List.length_replicate⟩

def momentAt (now : ℕ) : Moment := ⟨.insertion _,now⟩

def sampleStart : World := .start 1 10 (fun _ => 0)

def calmActions : List Action :=
  [.reserve 0 (momentAt 0) [(keyOf 1,[[5,6]])],.write 0 0,.write 0 0,.commit 0 (momentAt 1)]

def calmWorld : World := after (World.next .rdma 64) sampleStart calmActions

theorem calm_owned : (calmWorld.pool.lookup (keyOf 1)).map Prod.fst = some (some 0) ∧
    calmWorld.writer 0 = some (keyOf 1) := by
  have hfound : (calmWorld.pool.lookup (keyOf 1)).map Prod.fst = some (some 0) := by decide +kernel
  obtain ⟨⟨found,pool⟩,hl,rfl⟩ := Option.map_eq_some_iff.mp hfound
  have horderly : Always (World.next .rdma 64) Orderly sampleStart calmActions :=
    ⟨fun id p hp => by simp [sampleStart, World.start] at hp,trivial,trivial,trivial,trivial⟩
  exact ⟨hfound,(lookup_owned .rdma 64 1 10 (fun _ => 0) calmActions horderly calmWorld rfl (keyOf 1) 0
    pool hl).1⟩

/-- The first put's reservation expires and a second put fills the slot; then the first one writes. -/
def lateActions : List Action :=
  [.reserve 0 (momentAt 0) [(keyOf 1,[[5,6]])],.reserve 1 (momentAt 20) [(keyOf 2,[[7,8]])],
    .write 1 0,.write 1 0,.commit 1 (momentAt 21),.write 0 0]

def lateWorld : World := after (World.next .rdma 64) sampleStart lateActions

theorem late_put_writes : (lateWorld.pool.lookup (keyOf 2)).map Prod.fst = some (some 0) ∧
    lateWorld.writer 0 = some (keyOf 1) ∧ (lateWorld.puts 0).map Put.slots = some [0] := by
  decide +kernel

section Slots

variable (slotBytes : ℕ) (payload : KeyHash → List UInt8)

def HasKey (mem : ℕ → UInt8) (slot : ℕ) (k : KeyHash) : Prop :=
  read mem (slot*slotBytes) keyBytes = k.1

def HasBody (mem : ℕ → UInt8) (slot : ℕ) (k : KeyHash) : Prop :=
  read mem (slot*slotBytes+keyBytes) (payload k).length = payload k

def Fits (k : KeyHash) : Prop := keyBytes+(payload k).length ≤ slotBytes

theorem slots_apart {s t : ℕ} (h : s ≠ t) :
    s*slotBytes+slotBytes ≤ t*slotBytes ∨ t*slotBytes+slotBytes ≤ s*slotBytes := by
  rw [← Nat.succ_mul, ← Nat.succ_mul]
  rcases Nat.lt_or_gt_of_ne h with h | h
  · exact .inl (Nat.mul_le_mul_right _ h)
  · exact .inr (Nat.mul_le_mul_right _ h)

variable {slotBytes payload}

variable {mem : ℕ → UInt8} {c : Chunk}

theorem read_other {s x : ℕ} {off len : ℕ} (hs : s ≠ x)
    (hc : c.offset+c.bytes.length ≤ slotBytes) (hread : off+len ≤ slotBytes) :
    read (write mem (x*slotBytes+c.offset) c.bytes) (s*slotBytes+off) len =
      read mem (s*slotBytes+off) len := by
  apply read_write_apart
  have := slots_apart slotBytes hs
  omega

variable (payload) in
def Untouched (x : Writing) : Prop :=
  ∃ strips, x.todo = putChunks x.key strips ∧ strips.flatten = payload x.key

variable (slotBytes payload) in
/-- The key is in the slot, and the strips that are left complete the payload. -/
def Begun (mem : ℕ → UInt8) (x : Writing) : Prop :=
  HasKey slotBytes mem x.slot x.key ∧ ∃ off strips, x.todo = stripChunks (keyBytes+off) strips ∧
    read mem (x.slot*slotBytes+keyBytes) off ++ strips.flatten = payload x.key

theorem length_key (k : KeyHash) : k.1.length = keyBytes := k.2

variable {todo : List Chunk}

theorem stripChunks_cons {off : ℕ} {strips : List (List UInt8)}
    (h : c::todo = stripChunks off strips) : ∃ rest, strips = c.bytes::rest ∧ c.offset = off ∧
      todo = stripChunks (off+c.bytes.length) rest := by
  cases strips with
  | nil => cases h
  | cons strip rest =>
    cases h
    exact ⟨rest,rfl,rfl,rfl⟩

variable {x : Writing}

/-- A chunk of a put is the key at the start of its slot, or the part of the payload that belongs
where it is written. -/
theorem chunk_cases (hx : Untouched payload x ∨ Begun slotBytes payload mem x)
    (htodo : x.todo = c::todo) :
    (c = ⟨0,x.key.1⟩ ∧ ∃ strips, todo = stripChunks keyBytes strips ∧ strips.flatten = payload x.key) ∨
    (HasKey slotBytes mem x.slot x.key ∧ ∃ off rest, c.offset = keyBytes+off ∧
      todo = stripChunks (keyBytes+(off+c.bytes.length)) rest ∧
      read mem (x.slot*slotBytes+keyBytes) off ++ (c.bytes ++ rest.flatten) = payload x.key) := by
  rcases hx with ⟨strips,hchunks,hpay⟩ | ⟨hkey,off,strips,hchunks,hpay⟩
  · rw [htodo, putChunks] at hchunks
    cases hchunks
    exact .inl ⟨rfl,strips,rfl,hpay⟩
  · rw [htodo] at hchunks
    obtain ⟨rest,rfl,hoff,htodo'⟩ := stripChunks_cons hchunks
    exact .inr ⟨hkey,off,rest,hoff,by rw [htodo', Nat.add_assoc],hpay⟩

theorem length_part {start off : ℕ} {bytes rest text : List UInt8}
    (h : read mem start off ++ (bytes ++ rest) = text) : off+bytes.length ≤ text.length := by
  rw [← h]
  simp only [List.length_append, length_read]
  omega

section

variable {mem : ℕ → UInt8} {x : Writing} {c : Chunk} {todo : List Chunk}
  (hx : Untouched payload x ∨ Begun slotBytes payload mem x) (htodo : x.todo = c::todo)

include hx htodo

theorem chunk_within (hfits : Fits slotBytes payload x.key)
    : c.offset+c.bytes.length ≤ slotBytes := by
  rw [Fits] at hfits
  rcases chunk_cases hx htodo with ⟨rfl,-⟩ | ⟨-,off,rest,hoff,-,hpay⟩
  · simp only [length_key]
    omega
  · have := length_part hpay
    omega

theorem write_begun :
    Begun slotBytes payload (write mem (x.slot*slotBytes+c.offset) c.bytes) { x with todo := todo } := by
  rcases chunk_cases hx htodo with ⟨rfl,strips,htodo',hpay⟩ | ⟨hkey,off,rest,hoff,htodo',hpay⟩
  · refine ⟨?_,0,strips,htodo',by simpa using hpay⟩
    have := read_write_self mem (x.slot*slotBytes) x.key.1
    rwa [length_key] at this
  · rw [hoff]
    refine ⟨?_,off+c.bytes.length,rest,htodo',?_⟩
    · rw [HasKey, read_write_apart _ _ _ _ _ (by simp only; omega)]
      exact hkey
    · have hfront : read (write mem (x.slot*slotBytes+(keyBytes+off)) c.bytes)
          (x.slot*slotBytes+keyBytes) off = read mem (x.slot*slotBytes+keyBytes) off :=
        read_write_apart _ _ _ _ _ (by omega)
      rw [read_append, hfront, Nat.add_assoc, read_write_self, List.append_assoc]
      exact hpay

end

theorem Begun.complete (h : Begun slotBytes payload mem x)
    (htodo : x.todo = []) : HasBody slotBytes payload mem x.slot x.key := by
  obtain ⟨-,off,strips,hchunks,hpay⟩ := h
  rw [htodo] at hchunks
  cases strips with
  | nil =>
    rw [List.flatten_nil, List.append_nil] at hpay
    rw [HasBody, ← hpay, length_read]
  | cons strip strips => cases hchunks

theorem write_hasBody (hx : Untouched payload x ∨ Begun slotBytes payload mem x)
    (htodo : x.todo = c::todo)
    (hbody : HasBody slotBytes payload mem x.slot x.key) :
    HasBody slotBytes payload (write mem (x.slot*slotBytes+c.offset) c.bytes) x.slot x.key := by
  rcases chunk_cases hx htodo with ⟨rfl,-⟩ | ⟨-,off,rest,hoff,-,hpay⟩
  · rw [HasBody, read_write_apart _ _ _ _ _ (by simp only [length_key]; omega)]
    exact hbody
  · have hlen := length_part hpay
    have hpart := read_part mem _ _ off c.bytes.length hbody hlen
    have hbytes : ((payload x.key).drop off).take c.bytes.length = c.bytes := by
      rw [← hpay, List.drop_append_of_le_length (by simp), List.drop_eq_nil_of_le (by simp)]
      simp
    rw [hoff, ← Nat.add_assoc, write_same _ _ _ (hpart.trans hbytes)]
    exact hbody

end Slots

section Copies

def rest (text : List UInt8) (todo : List Fetch) : List UInt8 :=
  todo.flatMap (fun
    | .header => []
    | .strip off len => (text.drop (off-keyBytes)).take len)

theorem rest_header (text : List UInt8) (todo : List Fetch) :
    rest text (.header::todo) = rest text todo := rfl

theorem rest_strip (text : List UInt8) (off len : ℕ) (todo : List Fetch) :
    rest text (.strip off len::todo) = (text.drop (off-keyBytes)).take len ++ rest text todo := rfl

theorem rest_stripFetches (text : List UInt8) (off : ℕ) (lens : List ℕ) :
    rest text (stripFetches (keyBytes+off) lens) = (text.drop off).take lens.sum := by
  induction lens generalizing off with
  | nil => simp [rest, stripFetches]
  | cons len lens ih =>
    have htail := ih (off+len)
    rw [← Nat.add_assoc] at htail
    rw [stripFetches, rest_strip, htail, List.sum_cons, List.take_add, List.drop_drop,
      Nat.add_sub_cancel_left]

theorem rest_fetches (t : Transport) (text : List UInt8) (lens : List ℕ) (h : lens.sum = text.length) :
    rest text (fetches t lens) = text := by
  have hstrips := rest_stripFetches text 0 lens
  rw [List.drop_zero, h, List.take_length, Nat.add_zero] at hstrips
  cases t with
  | rdma =>
    rw [fetches, rest, List.flatMap_append, ← rest, hstrips]
    simp
  | shm =>
    rw [fetches, rest_header, hstrips]

variable {lens : List ℕ}

theorem mem_stripFetches {off : ℕ} {f : Fetch} (h : f ∈ stripFetches off lens) :
    ∃ o len, f = .strip o len ∧ off ≤ o ∧ o+len ≤ off+lens.sum := by
  induction lens generalizing off with
  | nil => cases h
  | cons len lens ih =>
    rcases List.mem_cons.mp h with rfl | h
    · exact ⟨off,len,rfl,le_rfl,by simp⟩
    · obtain ⟨o,l,rfl,hlo,hhi⟩ := ih h
      refine ⟨o,l,rfl,by omega,?_⟩
      rw [List.sum_cons]
      omega

variable (t : Transport) (slotBytes : ℕ) (payload : KeyHash → List UInt8)

/-- What is known of a reading: as long as its slot has its key, what has been copied is right. Over
RDMA the key is read last. -/
structure ReadOk (mem : ℕ → UInt8) (r : Reading) : Prop where
  fits : Fits slotBytes payload r.key
  within : ∀ off len, Fetch.strip off len ∈ r.todo →
    keyBytes ≤ off ∧ off+len ≤ keyBytes+(payload r.key).length
  refused : r.matched = some false → r.todo = []
  pending : r.matched = none → r.todo ≠ [] → HasKey slotBytes mem r.slot r.key →
    HasBody slotBytes payload mem r.slot r.key ∧ r.copied ++ rest (payload r.key) r.todo = payload r.key
  accepted : r.matched = some true → r.copied ++ rest (payload r.key) r.todo = payload r.key ∧
    (r.todo ≠ [] → HasBody slotBytes payload mem r.slot r.key)
  last : t = .rdma → r.matched = none → ∃ front, r.todo = front ++ [Fetch.header] ∧ Fetch.header ∉ front
  closed : t = .rdma → r.matched ≠ none → r.todo = []

variable {t slotBytes payload}

variable {mem : ℕ → UInt8}

variable {k : KeyHash}

theorem start_readOk {s : ℕ}
    (hfits : Fits slotBytes payload k) (hbody : HasBody slotBytes payload mem s k)
    (hlens : lens.sum = (payload k).length) :
    ReadOk t slotBytes payload mem ⟨k,s,fetches t lens,[],none⟩ where
  fits := hfits
  within off len h := by
    have hmem : Fetch.strip off len ∈ stripFetches keyBytes lens := by
      cases t with
      | rdma => simpa [fetches] using h
      | shm => simpa [fetches] using h
    obtain ⟨_,_,⟨⟩,hlo,hhi⟩ := mem_stripFetches hmem
    exact ⟨hlo,by rwa [← hlens]⟩
  refused := by simp
  pending _ _ _ := ⟨hbody,by rw [List.nil_append, rest_fetches t _ _ hlens]⟩
  accepted := by simp
  last ht _ := by
    subst ht
    refine ⟨stripFetches keyBytes lens,rfl,fun h => ?_⟩
    obtain ⟨_,_,⟨⟩,-⟩ := mem_stripFetches h
  closed := by simp

theorem read_strip {s off len : ℕ}
    (hbody : HasBody slotBytes payload mem s k)
    (hwithin : keyBytes ≤ off ∧ off+len ≤ keyBytes+(payload k).length) :
    read mem (s*slotBytes+off) len = ((payload k).drop (off-keyBytes)).take len := by
  have hpart := read_part mem _ _ (off-keyBytes) len hbody (by omega)
  rwa [Nat.add_assoc, Nat.add_sub_cancel' hwithin.1] at hpart

theorem fetch_readOk {r r' : Reading} (h : ReadOk t slotBytes payload mem r)
    (hf : r.fetch slotBytes mem = some r') : ReadOk t slotBytes payload mem r' := by
  rw [Reading.fetch] at hf
  rcases htodo : r.todo with _ | ⟨f,todo⟩
  · rw [htodo] at hf
    cases hf
  have hne : r.todo ≠ [] := by simp [htodo]
  have hopen : t = .rdma → r.matched = none := fun ht => by
    by_contra hm
    exact hne (h.closed ht hm)
  cases f with
  | header =>
    simp only [htodo] at hf
    split_ifs at hf with hkey
    · cases hf
      have hgood : HasBody slotBytes payload mem r.slot r.key ∧
          r.copied ++ rest (payload r.key) r.todo = payload r.key := by
        rcases hm : r.matched with _ | _ | _
        · exact h.pending hm hne hkey
        · exact absurd (h.refused hm) hne
        · exact ⟨(h.accepted hm).2 hne,(h.accepted hm).1⟩
      rw [htodo, rest_header] at hgood
      refine ⟨h.fits,fun off len hmem => h.within off len (by simp [htodo, hmem]),by simp,by simp,
        fun _ => ⟨hgood.2,fun _ => hgood.1⟩,by simp,fun ht _ => ?_⟩
      obtain ⟨front,hfront,hnone⟩ := h.last ht (hopen ht)
      rw [htodo] at hfront
      cases front with
      | nil => exact (List.cons.inj hfront).2
      | cons f front =>
        cases (List.cons.inj hfront).1
        exact absurd List.mem_cons_self hnone
    · cases hf
      exact ⟨h.fits,by simp,by simp,by simp,by simp,by simp,by simp⟩
  | strip off len =>
    simp only [htodo, Option.some.injEq] at hf
    subst hf
    have hwithin := h.within off len (by simp [htodo])
    have hcopy (hgood : HasBody slotBytes payload mem r.slot r.key)
        (htext : r.copied ++ rest (payload r.key) r.todo = payload r.key) :
        (r.copied ++ read mem (r.slot*slotBytes+off) len) ++ rest (payload r.key) todo =
          payload r.key := by
      rwa [read_strip hgood hwithin, List.append_assoc, ← rest_strip, ← htodo]
    refine ⟨h.fits,fun o l hmem => h.within o l (by simp [htodo, hmem]),fun hm => ?_,
      fun hm _ hkey => ?_,fun hm => ?_,fun ht hm => ?_,fun ht hm => absurd (hopen ht) hm⟩
    · exact absurd (h.refused hm) hne
    · obtain ⟨hbody,htext⟩ := h.pending hm hne hkey
      exact ⟨hbody,hcopy hbody htext⟩
    · obtain ⟨htext,hbody⟩ := h.accepted hm
      exact ⟨hcopy (hbody hne) htext,fun _ => hbody hne⟩
    · obtain ⟨front,hfront,hnone⟩ := h.last ht hm
      rw [htodo] at hfront
      cases front with
      | nil => cases hfront
      | cons f front =>
        exact ⟨front,(List.cons.inj hfront).2,fun hmem => hnone (List.mem_cons_of_mem _ hmem)⟩

end Copies

end Openlake.Kv
