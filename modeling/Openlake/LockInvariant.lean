import Openlake.Dsync

/-!
# The invariant of the lock protocol

The invariant follows one attempt through the peers that granted it. Until the
attempt is given up, no release of it is in flight, so a peer that granted it
still has its entry unless the lease lapsed there. A peer of its quorum that
answers a refresh with no has lost the entry.
-/

set_option autoImplicit false

namespace Openlake.LockInvariant
open LockServer Dsync

variable {n : ℕ} {validity : ℕ}

def Active (a : Attempt n) : Prop := a.phase = .waiting ∨ (a.phase = .held ∧ a.lost = false)

def Body.refreshing : Body → Bool
  | .refresh _ | .refreshed _ _ => true
  | _ => false

structure Inv (validity : ℕ) (s : State n) : Prop where
  empty : validity = 0 → ∀ p u, s.lapsed p u
  entry : ∀ p r e, s.table p r = some e → stale validity (s.clock p) e → s.lapsed p e.uid
  owner : ∀ k ∈ s.net, ∃ a, s.attempts k.uid = some a ∧ a.resource = k.resource
  quiet : ∀ k ∈ s.net, k.body = .release → ∀ a, s.attempts k.uid = some a → ¬Active a
  early : ∀ k ∈ s.net, Body.refreshing k.body → ∀ a, s.attempts k.uid = some a →
    a.phase ≠ .waiting
  idle : ∀ u a, s.attempts u = some a → a.phase = .waiting → a.round = none
  kept : ∀ u a p, s.attempts u = some a → Active a →
    (a.votes p = some .yes ∨ ⟨p,u,a.resource,.acquired true⟩ ∈ s.net) →
    s.lapsed p u ∨ Holds (s.table p) a.resource u
  quorum : ∀ u a, s.attempts u = some a → (a.phase = .held ∨ a.phase = .dropped) →
    quorum n ≤ (answersOf a.votes .yes).card
  refused : ∀ u a p, s.attempts u = some a → Active a → a.votes p = some .yes →
    ((∃ i, ⟨p,u,a.resource,.refreshed i false⟩ ∈ s.net) ∨ ∃ g, a.round = some g ∧ g p = some .no) →
    s.lapsed p u

theorem initial_inv : Inv validity (initial validity : State n) := by
  constructor
  case empty => exact fun h _ _ => h
  all_goals simp [initial]

theorem lose_inv (s : State n) (h : Inv validity s) (net : List (Packet n))
    (hsub : ∀ k ∈ net, k ∈ s.net) : Inv validity { s with net := net } where
  empty := h.empty
  entry := h.entry
  owner := fun k hk => h.owner k (hsub k hk)
  quiet := fun k hk => h.quiet k (hsub k hk)
  early := fun k hk => h.early k (hsub k hk)
  idle := h.idle
  kept := fun u a p ha hact hv => h.kept u a p ha hact (hv.imp_right (hsub _))
  quorum := h.quorum
  refused := fun u a p ha hact hv hno =>
    h.refused u a p ha hact hv (hno.imp_left fun ⟨i,hi⟩ => ⟨i,hsub _ hi⟩)

theorem tick_inv (s : State n) (h : Inv validity s) (p : Fin n) (now : ℕ) :
    Inv validity (s.tick validity p now) where
  empty := fun hv q u => .inl (h.empty hv q u)
  entry := by
    intro q r e he hs
    by_cases hq : q = p
    · subst hq
      exact .inr ⟨rfl,r,e,he,rfl,by simpa [State.tick] using hs⟩
    · exact .inl (h.entry q r e he (by simpa [State.tick, hq] using hs))
  owner := h.owner
  quiet := h.quiet
  early := h.early
  idle := h.idle
  kept := fun u a q ha hact hv => (h.kept u a q ha hact hv).imp_left .inl
  quorum := h.quorum
  refused := fun u a q ha hact hv hno => .inl (h.refused u a q ha hact hv hno)

theorem expireOld_some (locks : Locks) (now : ℕ) (r : String) (e : LockEntry)
    (h : expireOld validity now locks r = some e) : locks r = some e := by
  rw [expireOld, Option.bind_eq_some_iff] at h
  obtain ⟨e',he',h⟩ := h
  split_ifs at h
  rw [he', h]

theorem sweep_inv (s : State n) (h : Inv validity s) (p : Fin n) :
    Inv validity (s.sweep validity p) where
  empty := h.empty
  entry := by
    intro q r e he hs
    by_cases hq : q = p
    · subst hq
      simp only [State.sweep, Function.update_self] at he
      exact h.entry q r e (expireOld_some _ _ _ _ he) hs
    · simp only [State.sweep, Function.update_of_ne hq] at he
      exact h.entry q r e he hs
  owner := h.owner
  quiet := h.quiet
  early := h.early
  idle := h.idle
  kept := by
    intro u a q ha hact hv
    rcases h.kept u a q ha hact hv with hl | ⟨e,he,rfl⟩
    · exact .inl hl
    · by_cases hq : q = p
      · subst hq
        by_cases hs : stale validity (s.clock q) e
        · exact .inl (h.entry q _ e he hs)
        · exact .inr ⟨e,by simp [State.sweep, expireOld, he, hs],rfl⟩
      · exact .inr ⟨e,by simp [State.sweep, hq, he],rfl⟩
  quorum := h.quorum
  refused := h.refused

/-- What a client transition of attempt `u` may do, seen from the invariant. -/
structure Moves (s : State n) (u : String) (a a' : Attempt n) (out : List (Packet n))
    (events : List (Event n)) : Prop where
  resource : a'.resource = a.resource
  active : Active a' → Active a
  waiting : a'.phase = .waiting → a.phase = .waiting
  idle : a'.phase = .waiting → a'.round = none
  votes : ∀ p, a'.votes p = some .yes →
    a.votes p = some .yes ∨ ⟨p,u,a.resource,.acquired true⟩ ∈ s.net
  frozen : a.phase ≠ .waiting → a'.votes = a.votes
  quorum : a'.phase = .held ∨ a'.phase = .dropped → quorum n ≤ (answersOf a'.votes .yes).card
  noes : ∀ p g', a'.round = some g' → g' p = some .no →
    (∃ i, ⟨p,u,a.resource,.refreshed i false⟩ ∈ s.net) ∨ ∃ g, a.round = some g ∧ g p = some .no
  sent : ∀ k ∈ out, k.uid = u ∧ k.resource = a.resource ∧ k.body.isRequest
  outRelease : ∀ k ∈ out, k.body = .release → ¬Active a'
  outRefresh : ∀ k ∈ out, Body.refreshing k.body → a'.phase ≠ .waiting
  decided : a.phase = .held ∨ a.phase = .dropped → a'.phase = .held ∨ a'.phase = .dropped
  logged : ∀ e ∈ events, e = .acquired u ∧ a.phase = .waiting ∧ a'.phase = .held

theorem not_request_of_mem {s : State n} {u : String} {a a' : Attempt n} {out : List (Packet n)}
    {events : List (Event n)} (hm : Moves s u a a' out events) {net : List (Packet n)} {k : Packet n} (hk : k ∈ out ++ net)
    (hb : k.body.isRequest = false) : k ∈ net := by
  rcases List.mem_append.mp hk with hk | hk
  · rw [(hm.sent k hk).2.2] at hb
    cases hb
  · exact hk

theorem moves_inv (s : State n) (h : Inv validity s) (u : String) (a a' : Attempt n)
    (out : List (Packet n)) (events : List (Event n)) (net : List (Packet n))
    (ha : s.attempts u = some a) (hsub : ∀ k ∈ net, k ∈ s.net) (hm : Moves s u a a' out events) :
    Inv validity ({ s with net := net }.setAttempt u a' out events) := by
  have hself : (Function.update s.attempts u (some a')) u = some a' := Function.update_self ..
  have hother : ∀ w, w ≠ u → (Function.update s.attempts u (some a')) w = s.attempts w :=
    fun w hw => Function.update_of_ne hw ..
  constructor
  case empty => exact h.empty
  case entry => exact h.entry
  case owner =>
    intro k hk
    rcases List.mem_append.mp hk with hk | hk
    · obtain ⟨hu,hr,-⟩ := hm.sent k hk
      exact ⟨a',by rw [hu]; exact hself,by rw [hm.resource, hr]⟩
    · obtain ⟨b,hb,hr⟩ := h.owner k (hsub k hk)
      by_cases hku : k.uid = u
      · rw [hku, ha] at hb
        obtain rfl := Option.some.inj hb
        exact ⟨a',by rw [hku]; exact hself,by rw [hm.resource, hr]⟩
      · exact ⟨b,by rw [State.setAttempt]; simpa [hku] using hb,hr⟩
  case quiet =>
    intro k hk hb b hkb
    by_cases hku : k.uid = u
    · obtain rfl : a' = b := by
        rw [hku] at hkb
        exact Option.some.inj (hself.symm.trans hkb)
      rcases List.mem_append.mp hk with hk | hk
      · exact hm.outRelease k hk hb
      · exact fun hact => h.quiet k (hsub k hk) hb a (by rw [hku]; exact ha) (hm.active hact)
    · have hkb' : s.attempts k.uid = some b := (hother _ hku).symm.trans hkb
      rcases List.mem_append.mp hk with hk | hk
      · exact absurd (hm.sent k hk).1 hku
      · exact h.quiet k (hsub k hk) hb b hkb'
  case early =>
    intro k hk hb b hkb
    by_cases hku : k.uid = u
    · obtain rfl : a' = b := by
        rw [hku] at hkb
        exact Option.some.inj (hself.symm.trans hkb)
      rcases List.mem_append.mp hk with hk | hk
      · exact hm.outRefresh k hk hb
      · exact fun hw => h.early k (hsub k hk) hb a (by rw [hku]; exact ha) (hm.waiting hw)
    · have hkb' : s.attempts k.uid = some b := (hother _ hku).symm.trans hkb
      rcases List.mem_append.mp hk with hk | hk
      · exact absurd (hm.sent k hk).1 hku
      · exact h.early k (hsub k hk) hb b hkb'
  case idle =>
    intro w b hw hph
    by_cases hwu : w = u
    · subst hwu
      obtain rfl : a' = b := Option.some.inj (hself.symm.trans hw)
      exact hm.idle hph
    · exact h.idle w b ((hother _ hwu).symm.trans hw) hph
  case kept =>
    intro w b p hw hact hv
    by_cases hwu : w = u
    · subst hwu
      obtain rfl : a' = b := Option.some.inj (hself.symm.trans hw)
      rw [hm.resource] at hv ⊢
      refine h.kept w a p ha (hm.active hact) ?_
      rcases hv with hv | hv
      · exact hm.votes p hv
      · exact .inr (hsub _ (not_request_of_mem hm hv rfl))
    · refine h.kept w b p ((hother _ hwu).symm.trans hw) hact (hv.imp_right fun hk => ?_)
      exact hsub _ (not_request_of_mem hm hk rfl)
  case quorum =>
    intro w b hw hph
    by_cases hwu : w = u
    · subst hwu
      obtain rfl : a' = b := Option.some.inj (hself.symm.trans hw)
      exact hm.quorum hph
    · exact h.quorum w b ((hother _ hwu).symm.trans hw) hph
  case refused =>
    intro w b p hw hact hv hno
    by_cases hwu : w = u
    · subst hwu
      obtain rfl : a' = b := Option.some.inj (hself.symm.trans hw)
      have hno' : (∃ i, ⟨p,w,a.resource,.refreshed i false⟩ ∈ s.net) ∨
          ∃ g, a.round = some g ∧ g p = some .no := by
        rcases hno with ⟨i,hi⟩ | ⟨g,hg,hp⟩
        · rw [hm.resource] at hi
          exact .inl ⟨i,hsub _ (not_request_of_mem hm hi rfl)⟩
        · exact hm.noes p g hg hp
      have hph : a.phase ≠ .waiting := by
        rcases hno' with ⟨i,hi⟩ | ⟨g,hg,-⟩
        · exact h.early _ hi rfl a ha
        · intro hwait
          rw [h.idle w a ha hwait] at hg
          cases hg
      rw [hm.frozen hph] at hv
      exact h.refused w a p ha (hm.active hact) hv hno'
    · refine h.refused w b p ((hother _ hwu).symm.trans hw) hact hv (hno.imp_left ?_)
      exact fun ⟨i,hi⟩ => ⟨i,hsub _ (not_request_of_mem hm hi rfl)⟩

/-- The transitions as the invariants see them. -/
inductive Effect (validity : ℕ) (s : State n) : State n → Prop
  | start (u r : String) (hu : s.attempts u = none) :
      Effect validity s
        (s.setAttempt u { resource := r } (toPeers (List.finRange n) u r .acquire) [])
  | serve (k : Packet n) (hk : k ∈ s.net) (hreq : k.body.isRequest) :
      Effect validity s (s.served validity k)
  | move (u : String) (a a' : Attempt n) (out : List (Packet n)) (events : List (Event n))
      (net : List (Packet n)) (ha : s.attempts u = some a) (hsub : ∀ k ∈ net, k ∈ s.net)
      (hm : Moves s u a a' out events) :
      Effect validity s ({ s with net := net }.setAttempt u a' out events)
  | sweep (p : Fin n) : Effect validity s (s.sweep validity p)
  | tick (p : Fin n) (now : ℕ) : Effect validity s (s.tick validity p now)
  | lose (net : List (Packet n)) (hsub : ∀ k ∈ net, k ∈ s.net) :
      Effect validity s { s with net := net }

end Openlake.LockInvariant
