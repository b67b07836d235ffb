import Openlake.KvOwnership

/-!
# When a get copies the payload of its key

The key in a slot vouches for the payload unless a put disturbs a get: a put of
the same key that starts in the slot after another key had been there, or, where
the key is read first, any put of another key while the strips are copied. Runs
without such a put copy the payload.
-/

set_option autoImplicit false

namespace Openlake.Kv
open Lib.ByteMemory Lib.GuardedRuns Slots

section Condition

variable (t : Transport) (slotBytes : ℕ) (payload : KeyHash → List UInt8)

/-- The next write to a slot misleads a get that has been given the slot. -/
def Disturbs (w : World) (x : Writing) (r : Reading) : Prop :=
  r.slot = x.slot ∧ r.todo ≠ [] ∧
    ((r.matched = none ∧ x.key = r.key ∧ ¬HasKey slotBytes w.mem x.slot x.key) ∨
      (t = .shm ∧ r.matched = some true ∧ x.key ≠ r.key))

/-- Reservations last, every put of a key carries its payload, which fits a slot, every get asks
for all of it, and no write disturbs a get. -/
def Undisturbed (w : World) : Action → Prop
  | .reserve id m items => Orderly w (.reserve id m items) ∧
      ∀ item ∈ items, item.2.flatten = payload item.1 ∧ Fits slotBytes payload item.1
  | .lookup _ _ items => ∀ item ∈ items, item.2.sum = (payload item.1).length
  | .write id i => ∀ p x, w.puts id = some p → p.items[i]? = some x →
      ∀ gid g, w.gets gid = some g → ∀ r ∈ g, ¬Disturbs t slotBytes w x r
  | a => Orderly w a

end Condition

variable {t : Transport} {slotBytes slotCount : ℕ} {payload : KeyHash → List UInt8}

theorem Undisturbed.orderly {w : World} {a : Action} (h : Undisturbed t slotBytes payload w a) :
    Orderly w a := by
  cases a with
  | reserve id m items => exact h.1
  | reset m => exact h
  | _ => trivial

theorem hasKey_unique {mem : ℕ → UInt8} {s : ℕ} {k k' : KeyHash} (h : HasKey slotBytes mem s k)
    (h' : HasKey slotBytes mem s k') : k = k' := Subtype.ext (h.symm.trans h')

section OneWrite

variable {w : World} {x : Writing} {c : Chunk} {todo : List Chunk}
  (hx : Untouched payload x ∨ Begun slotBytes payload w.mem x) (htodo : x.todo = c::todo)
  (hfits : Fits slotBytes payload x.key)

include hx htodo hfits

theorem store_other_key {s : ℕ} (hs : s ≠ x.slot) (k : KeyHash) :
    HasKey slotBytes (w.store slotBytes x c).mem s k ↔ HasKey slotBytes w.mem s k := by
  have hread : read (write w.mem (x.slot*slotBytes+c.offset) c.bytes) (s*slotBytes+0) keyBytes =
      read w.mem (s*slotBytes+0) keyBytes :=
    read_other hs (chunk_within hx htodo hfits) (by rw [Fits] at hfits; omega)
  rw [Nat.add_zero] at hread
  rw [HasKey, HasKey, World.store, hread]

theorem store_other_body {s : ℕ} (hs : s ≠ x.slot) {k : KeyHash} (hk : Fits slotBytes payload k) :
    HasBody slotBytes payload (w.store slotBytes x c).mem s k ↔
      HasBody slotBytes payload w.mem s k := by
  rw [HasBody, HasBody, World.store, read_other hs (chunk_within hx htodo hfits) hk]

theorem store_other_begun {y : Writing} (hs : y.slot ≠ x.slot) (hy : Fits slotBytes payload y.key)
    (hbegun : Begun slotBytes payload w.mem y) :
    Begun slotBytes payload (w.store slotBytes x c).mem y := by
  obtain ⟨hkey,off,strips,hchunks,hpay⟩ := hbegun
  refine ⟨(store_other_key hx htodo hfits hs y.key).mpr hkey,off,strips,hchunks,?_⟩
  have hlen : off+([] : List UInt8).length ≤ (payload y.key).length := length_part hpay
  have hroom : keyBytes+off ≤ slotBytes := by
    rw [Fits] at hy
    simp only [List.length_nil] at hlen
    omega
  rw [World.store, read_other hs (chunk_within hx htodo hfits) hroom]
  exact hpay

theorem store_readOk {r : Reading} (h : ReadOk t slotBytes payload w.mem r)
    (hcalm : ¬Disturbs t slotBytes w x r) :
    ReadOk t slotBytes payload (w.store slotBytes x c).mem r := by
  by_cases hs : r.slot = x.slot
  · refine ⟨h.fits,h.within,h.refused,fun hm hne hkey => ?_,fun hm => ⟨(h.accepted hm).1,fun hne => ?_⟩,
      h.last,h.closed⟩
    · rw [hs] at hkey
      have hsame : x.key = r.key := hasKey_unique (write_begun hx htodo).1 hkey
      have hold : HasKey slotBytes w.mem r.slot r.key := by
        by_contra hno
        exact hcalm ⟨hs,hne,.inl ⟨hm,hsame,by rwa [← hs, hsame]⟩⟩
      obtain ⟨hbody,htext⟩ := h.pending hm hne hold
      rw [hs, ← hsame] at hbody
      refine ⟨?_,htext⟩
      rw [hs, ← hsame]
      exact write_hasBody hx htodo hbody
    · have hbody := (h.accepted hm).2 hne
      have hsame : x.key = r.key := by
        by_contra hother
        cases t with
        | rdma => exact hne (h.closed rfl (by simp [hm]))
        | shm => exact hcalm ⟨hs,hne,.inr ⟨rfl,hm,hother⟩⟩
      rw [hs, ← hsame] at hbody ⊢
      exact write_hasBody hx htodo hbody
  · have hbody := store_other_body hx htodo hfits hs h.fits
    refine ⟨h.fits,h.within,h.refused,fun hm hne hkey => ?_,fun hm => ?_,h.last,h.closed⟩
    · rw [hbody]
      exact h.pending hm hne ((store_other_key hx htodo hfits hs r.key).mp hkey)
    · rw [hbody]
      exact h.accepted hm

end OneWrite

variable (t slotBytes payload) in
structure Contents (w : World) : Prop where
  fits : ∀ id p, w.puts id = some p → ∀ x ∈ p.items, Fits slotBytes payload x.key
  progress : ∀ id p, w.puts id = some p → ∀ x ∈ p.items,
    Untouched payload x ∨ Begun slotBytes payload w.mem x
  bindings : ∀ s k, w.pool.bySlot s = some k → Fits slotBytes payload k ∧
    HasKey slotBytes w.mem s k ∧ HasBody slotBytes payload w.mem s k
  reads : ∀ id g, w.gets id = some g → ∀ r ∈ g, ReadOk t slotBytes payload w.mem r

theorem start_contents (n : UInt32) (reserveTtl : ℕ) (mem : ℕ → UInt8) :
    Contents t slotBytes payload (.start n reserveTtl mem) where
  fits := by simp [World.start]
  progress := by simp [World.start]
  bindings := by simp [World.start, SlotPool.new]
  reads := by simp [World.start]

section Keep

variable {w : World} (h : Contents t slotBytes payload w)

include h

theorem Contents.setPut {id : ℕ} {q : Option Put}
    (hq : ∀ p, q = some p → ∀ x ∈ p.items, Fits slotBytes payload x.key ∧
      (Untouched payload x ∨ Begun slotBytes payload w.mem x)) :
    Contents t slotBytes payload (w.setPut id q) := by
  have hput (i : ℕ) (p : Put) (hp : (w.setPut id q).puts i = some p) : q = some p ∨ w.puts i = some p := by
    by_cases hi : i = id
    · subst hi
      exact .inl (setPut_self w i q ▸ hp)
    · exact .inr (setPut_other w q hi ▸ hp)
  refine ⟨fun i p hp x hx => ?_,fun i p hp x hx => ?_,h.bindings,h.reads⟩
  · rcases hput i p hp with hp | hp
    · exact (hq p hp x hx).1
    · exact h.fits i p hp x hx
  · rcases hput i p hp with hp | hp
    · exact (hq p hp x hx).2
    · exact h.progress i p hp x hx

theorem Contents.call {pool : SlotPool KeyHash} {gone : List ℕ} {made : List (ℕ × KeyHash)}
    (hchanges : Changes w.pool pool gone made)
    (hmade : ∀ s k, (s,k) ∈ made → Fits slotBytes payload k ∧ HasKey slotBytes w.mem s k ∧
      HasBody slotBytes payload w.mem s k) :
    Contents t slotBytes payload { w with pool := pool } where
  fits := h.fits
  progress := h.progress
  bindings s k hk := by
    rcases hchanges.bindings s k hk with hk | hk
    · exact h.bindings s k hk
    · exact hmade s k hk
  reads := h.reads

theorem Contents.store (howned : Owned slotCount w) {id i : ℕ} {p : Put} {x : Writing} {c : Chunk} {todo : List Chunk}
    (hp : w.puts id = some p) (hx : p.items[i]? = some x) (htodo : x.todo = c::todo)
    (hcalm : ∀ gid g, w.gets gid = some g → ∀ r ∈ g, ¬Disturbs t slotBytes w x r) :
    Contents t slotBytes payload ((w.store slotBytes x c).setPut id
      (some { p with items := p.items.set i { x with todo := todo } })) := by
  have hmem : x ∈ p.items := List.mem_of_getElem? hx
  have hslot : x.slot ∈ p.slots := List.mem_map_of_mem hmem
  have hprog := h.progress id p hp x hmem
  have hfits := h.fits id p hp x hmem
  have hother (j : ℕ) (q : Put) (hq : w.puts j = some q) (y : Writing) (hy : y ∈ q.items)
      (hne : y.slot ≠ x.slot) :
      Untouched payload y ∨ Begun slotBytes payload (w.store slotBytes x c).mem y :=
    (h.progress j q hq y hy).imp_right
      (store_other_begun hprog htodo hfits hne (h.fits j q hq y hy))
  have hitem (y : Writing) (hy : y ∈ p.items.set i { x with todo := todo }) :
      y = { x with todo := todo } ∨ (y ∈ p.items ∧ y.slot ≠ x.slot) := by
    obtain ⟨j,hj⟩ := List.getElem?_of_mem hy
    rw [List.getElem?_set] at hj
    split_ifs at hj with hij hi
    · exact .inl (Option.some.inj hj).symm
    · refine .inr ⟨List.mem_of_getElem? hj,fun hslots => hij ?_⟩
      have hi : i < p.slots.length := by
        simpa [Put.slots] using (List.getElem?_eq_some_iff.mp hx).1
      apply (List.getElem?_inj hi (howned.once id p hp)).mp
      simp [Put.slots, hx, hj, hslots]
  refine ⟨fun j q hq y hy => ?_,fun j q hq y hy => ?_,fun s k hk => ?_,fun gid g hg r hr => ?_⟩
  · by_cases hj : j = id
    · subst hj
      rw [setPut_self, Option.some.injEq] at hq
      subst hq
      rcases hitem y hy with rfl | ⟨hy,-⟩
      · exact hfits
      · exact h.fits j p hp y hy
    · rw [setPut_other _ _ hj] at hq
      exact h.fits j q hq y hy
  · by_cases hj : j = id
    · subst hj
      rw [setPut_self, Option.some.injEq] at hq
      subst hq
      rcases hitem y hy with rfl | ⟨hy,hne⟩
      · exact .inr (write_begun hprog htodo)
      · exact hother j p hp y hy hne
    · rw [setPut_other _ _ hj] at hq
      refine hother j q hq y hy fun hslots => ?_
      exact howned.apart j q id p hq hp hj y.slot (List.mem_map_of_mem hy) (hslots ▸ hslot)
  · obtain ⟨hk',hkey,hbody⟩ := h.bindings s k hk
    have hne : s ≠ x.slot := fun hs => howned.bound_free hk hp (hs ▸ hslot)
    exact ⟨hk',(store_other_key hprog htodo hfits hne k).mpr hkey,
      (store_other_body hprog htodo hfits hne hk').mpr hbody⟩
  · exact store_readOk hprog htodo hfits (h.reads gid g hg r hr) (hcalm gid g hg r hr)

theorem Contents.look (howned : Owned slotCount w) {items : List (KeyHash × List ℕ)}
    (hitems : ∀ item ∈ items, item.2.sum = (payload item.1).length) {r : Reading}
    (hr : r ∈ startReadings t items (items.map (fun item => w.pool.byHash item.1))) :
    ReadOk t slotBytes payload w.mem r := by
  obtain ⟨⟨item,slot⟩,hmem,hr⟩ := List.mem_filterMap.mp hr
  obtain ⟨s,hs,rfl⟩ := Option.map_eq_some_iff.mp hr
  have hzip : items.zip (items.map (fun item => w.pool.byHash item.1)) =
      items.map (fun item => (item,w.pool.byHash item.1)) := by
    simpa using List.zip_map' (f := id) (g := fun item => w.pool.byHash item.1) (l := items)
  rw [hzip] at hmem
  obtain ⟨_,hitem,heq⟩ := List.mem_map.mp hmem
  cases heq
  obtain ⟨bound,hinv⟩ := howned.pool
  obtain ⟨hfits,-,hbody⟩ := h.bindings s item.1 ((hinv.inverse s item.1).mpr hs)
  exact start_readOk hfits hbody (hitems item hitem)

end Keep

theorem effect_contents {w w' : World} {a : Action} (howned : Owned slotCount w)
    (h : Contents t slotBytes payload w) (ha : Undisturbed t slotBytes payload w a)
    (he : Effect t slotBytes w a w') : Contents t slotBytes payload w' := by
  cases he with
  | idle a => exact h
  | reserve id m items slots pool hid hr =>
    obtain ⟨bound,hinv⟩ := howned.pool
    obtain ⟨hchanges,-⟩ := reserve_changes hinv hr
    refine (h.call hchanges (by simp)).setPut fun p hp x hx => ?_
    cases hp
    obtain ⟨item,hitem,hkey,htodo⟩ := mem_start hx
    obtain ⟨hpay,hfits⟩ := ha.2 item hitem
    rw [← hkey] at hfits htodo hpay
    exact ⟨hfits,.inl ⟨item.2,htodo,hpay⟩⟩
  | write id i p x c todo hp hx htodo =>
    exact h.store howned hp hx htodo (ha p x hp hx)
  | fail id p hp =>
    refine h.setPut fun q hq x hx => ?_
    cases hq
    exact ⟨h.fits id p hp x hx,h.progress id p hp x hx⟩
  | commit id m p pool hp hdone hc =>
    rw [entries_eq] at hc
    refine (h.call (commitBytes_changes _ hc) fun s k hk => ?_).setPut (by simp)
    obtain ⟨x,hx,heq⟩ := List.mem_map.mp hk
    cases heq
    rcases h.progress id p hp x hx with ⟨strips,hchunks,-⟩ | hbegun
    · simp [hdone x hx, putChunks] at hchunks
    · exact ⟨h.fits id p hp x hx,hbegun.1,hbegun.complete (hdone x hx)⟩
  | release id m p pool hp hr =>
    exact (h.call (releaseAll_changes p.slots hr) (by simp)).setPut (by simp)
  | stop id => exact h.setPut (by simp)
  | lookup id m items slots pool hl =>
    rw [keys_eq] at hl
    obtain ⟨hchanges,hslots,-⟩ := lookupBytes_changes _ hl
    have hcall := h.call hchanges (by simp)
    refine ⟨hcall.fits,hcall.progress,hcall.bindings,fun gid g hg r hr => ?_⟩
    by_cases hid : gid = id
    · subst hid
      simp only [Function.update_self, Option.some.injEq] at hg
      subst hg
      rw [hslots, List.map_map] at hr
      exact h.look howned ha hr
    · simp only [Function.update_of_ne hid] at hg
      exact h.reads gid g hg r hr
  | fetch id i g r r' hg hr hf =>
    refine ⟨h.fits,h.progress,h.bindings,fun gid g' hg' y hy => ?_⟩
    by_cases hid : gid = id
    · subst hid
      simp only [Function.update_self, Option.some.injEq] at hg'
      subst hg'
      rcases List.mem_or_eq_of_mem_set hy with hy | rfl
      · exact h.reads gid g hg y hy
      · exact fetch_readOk (h.reads gid g hg r (List.mem_of_getElem? hr)) hf
    · simp only [Function.update_of_ne hid] at hg'
      exact h.reads gid g' hg' y hy
  | reset m => exact ⟨h.fits,h.progress,by simp [SlotPool.clear, SlotPool.new],h.reads⟩

theorem run_contents (n : UInt32) (reserveTtl : ℕ) (mem : ℕ → UInt8) (actions : List Action)
    (hcalm : Always (World.next t slotBytes) (Undisturbed t slotBytes payload)
      (.start n reserveTtl mem) actions) :
    Contents t slotBytes payload (after (World.next t slotBytes) (.start n reserveTtl mem) actions) := by
  have hboth := hcalm.invariant (fun w => Owned n.toNat w ∧ Contents t slotBytes payload w)
    (fun w a h ha => ⟨effect_owned h.1 ha.orderly (next_effect t slotBytes w a),
      effect_contents h.1 h.2 ha (next_effect t slotBytes w a)⟩)
    ⟨start_owned n reserveTtl mem,start_contents n reserveTtl mem⟩
  exact hboth.2

/-- A reading that reports its key, in a run without disturbance, has copied the payload. -/
theorem hit_exact {w : World} (h : Contents t slotBytes payload w) {id : ℕ} {g : List Reading}
    (hg : w.gets id = some g) {r : Reading} (hr : r ∈ g) (hit : r.Hit) : r.copied = payload r.key := by
  have htext := ((h.reads id g hg r hr).accepted hit.2).1
  rwa [hit.1, rest, List.flatMap_nil, List.append_nil] at htext

/-- Over RDMA, in every run whose steps are undisturbed: what a get that reports 0 for a key has
copied is the payload of the key. -/
theorem rdma_get_exact (size : ℕ) (text : KeyHash → List UInt8) (n : UInt32) (reserveTtl : ℕ)
    (mem : ℕ → UInt8) (actions : List Action)
    (hcalm : Always (World.next .rdma size) (Undisturbed .rdma size text) (.start n reserveTtl mem)
      actions)
    (w : World) (hw : w = after (World.next .rdma size) (.start n reserveTtl mem) actions)
    (id : ℕ) (g : List Reading) (hg : w.gets id = some g) (r : Reading) (hr : r ∈ g) (hit : r.Hit) :
    r.copied = text r.key :=
  hit_exact (hw ▸ run_contents n reserveTtl mem actions hcalm) hg hr hit

def samplePayload (k : KeyHash) : List UInt8 := if k = keyOf 1 then [5,6] else [7,8]

def storeAndGet : List Action := calmActions ++
  ([.lookup 0 (momentAt 2) [(keyOf 1,[2])],.fetch 0 0,.fetch 0 0] : List Action)

theorem calm_undisturbed (t : Transport) : Always (World.next t 64) (Undisturbed t 64 samplePayload)
    sampleStart storeAndGet := by
  refine ⟨⟨fun _ _ h => (nomatch h),?_⟩,fun _ _ _ _ _ _ h => (nomatch h),
    fun _ _ _ _ _ _ h => (nomatch h),trivial,?_,trivial,trivial,trivial⟩
  · simp [samplePayload, Fits, keyBytes]
  · simp [Undisturbed, samplePayload]

def gotten (t : Transport) (actions : List Action) : Option (List (ℕ × Option Bool × List UInt8)) :=
  ((after (World.next t 64) sampleStart actions).gets 0).map
    (List.map (fun r => (r.todo.length,r.matched,r.copied)))

theorem rdma_get_calm : gotten .rdma storeAndGet = some [(0,some true,[5,6])] ∧
    ∀ g, (after (World.next .rdma 64) sampleStart storeAndGet).gets 0 = some g → ∀ r ∈ g, r.Hit →
      r.copied = samplePayload r.key :=
  ⟨by decide +kernel,fun g hg r hr hit => rdma_get_exact 64 samplePayload 1 10 (fun _ => 0) storeAndGet
    (calm_undisturbed .rdma) _ rfl 0 g hg r hr hit⟩

/-- The slot is evicted and filled for another key while a get copies it, and then reserved again by
a put of the first key, whose key is in the slot before its payload. -/
def refilled : List Action := calmActions ++
  ([.lookup 0 (momentAt 2) [(keyOf 1,[2])],
    .reserve 1 (momentAt 2) [(keyOf 2,[[7,8]])],.write 1 0,.write 1 0,.commit 1 (momentAt 3),
    .fetch 0 0,
    .reserve 2 (momentAt 3) [(keyOf 1,[[5,6]])],.write 2 0,
    .fetch 0 0] : List Action)

theorem rdma_get_refilled : samplePayload (keyOf 1) = [5,6] ∧ samplePayload (keyOf 2) = [7,8] ∧
    gotten .rdma refilled = some [(0,some true,[7,8])] := by decide +kernel

/-- Through shared memory, in every run whose steps are undisturbed: what a get that reports 0 for a
key has copied is the payload of the key. -/
theorem shm_get_exact (size : ℕ) (text : KeyHash → List UInt8) (n : UInt32) (reserveTtl : ℕ)
    (mem : ℕ → UInt8) (actions : List Action)
    (hcalm : Always (World.next .shm size) (Undisturbed .shm size text) (.start n reserveTtl mem)
      actions)
    (w : World) (hw : w = after (World.next .shm size) (.start n reserveTtl mem) actions)
    (id : ℕ) (g : List Reading) (hg : w.gets id = some g) (r : Reading) (hr : r ∈ g) (hit : r.Hit) :
    r.copied = text r.key :=
  hit_exact (hw ▸ run_contents n reserveTtl mem actions hcalm) hg hr hit

theorem shm_get_calm : gotten .shm storeAndGet = some [(0,some true,[5,6])] ∧
    ∀ g, (after (World.next .shm 64) sampleStart storeAndGet).gets 0 = some g → ∀ r ∈ g, r.Hit →
      r.copied = samplePayload r.key :=
  ⟨by decide +kernel,fun g hg r hr hit => shm_get_exact 64 samplePayload 1 10 (fun _ => 0) storeAndGet
    (calm_undisturbed .shm) _ rfl 0 g hg r hr hit⟩

/-- The slot is evicted and filled for another key after a get has seen its own key there. -/
def replaced : List Action := calmActions ++
  ([.lookup 0 (momentAt 2) [(keyOf 1,[2])],.fetch 0 0,
    .reserve 1 (momentAt 2) [(keyOf 2,[[7,8]])],.write 1 0,.write 1 0,
    .fetch 0 0] : List Action)

theorem shm_get_replaced : samplePayload (keyOf 1) = [5,6] ∧ samplePayload (keyOf 2) = [7,8] ∧
    gotten .shm replaced = some [(0,some true,[7,8])] := by decide +kernel

end Openlake.Kv
