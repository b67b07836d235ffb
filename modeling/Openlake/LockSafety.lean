import Openlake.LockClient

/-!
# Mutual exclusion of lock guards

With the server's side the invariant holds along every run. Two guards of one
resource would need a common peer whose only entry names both, and a guard
whose leases stand is never declared lost.
-/

set_option autoImplicit false

namespace Openlake.LockSafety
open LockServer Dsync LockInvariant LockClient Lib.Protocol

variable {n : ℕ} {validity : ℕ}

/-- One served request, as the invariant sees it: what the table of the peer
can become and what the reply says about it. -/
structure Serves (validity : ℕ) (s : State n) (k : Packet n) (locks : Locks)
    (reply : Option Body) : Prop where
  fresh : ∀ r e, locks r = some e → stale validity (s.clock k.peer) e →
    validity = 0 ∨ s.table k.peer r = some e
  request : ∀ b ∈ reply, b ≠ .release
  refreshing : ∀ b ∈ reply, Body.refreshing b → Body.refreshing k.body
  acquired : .acquired true ∈ reply → Holds locks k.resource k.uid
  grants : .acquired true ∈ reply →
    ∀ e, s.table k.peer k.resource = some e → stale validity (s.clock k.peer) e
  refreshed : ∀ i, .refreshed i false ∈ reply → ¬Holds (s.table k.peer) k.resource k.uid
  keeps : ∀ r u, Holds (s.table k.peer) r u → Holds locks r u ∨
    (k.body = .release ∧ k.uid = u) ∨
    ∃ e, s.table k.peer r = some e ∧ e.uid = u ∧ stale validity (s.clock k.peer) e

theorem holds_update_of_ne (locks : Locks) (r r' u : String) (e : Option LockEntry) (hr : r ≠ r')
    (h : Holds locks r u) : Holds (Function.update locks r' e) r u := by
  obtain ⟨e',he',hu⟩ := h
  exact ⟨e',by rw [Function.update_of_ne hr]; exact he',hu⟩

theorem fresh_update (locks : Locks) (now : ℕ) (r' u r : String) (e : LockEntry)
    (h : Function.update locks r' (some ⟨u,now⟩) r = some e) (hs : stale validity now e) :
    validity = 0 ∨ locks r = some e := by
  by_cases hr : r = r'
  · subst hr
    rw [Function.update_self] at h
    obtain rfl := Option.some.inj h
    have hv : validity ≤ now-now := hs
    exact .inl (by omega)
  · rw [Function.update_of_ne hr] at h
    exact .inr h

theorem serve_serves (validity : ℕ) (s : State n) (k : Packet n) (hreq : k.body.isRequest) :
    Serves validity s k
      (serve validity (s.clock k.peer) (s.table k.peer) k.uid k.resource k.body).1
      (serve validity (s.clock k.peer) (s.table k.peer) k.uid k.resource k.body).2 := by
  obtain ⟨p,u,r,body⟩ := k
  cases body with
  | acquire =>
    simp only [serve]
    rcases acquire_cases validity (s.clock p) (s.table p) r u with hc | ⟨hc,hst⟩
    · rw [hc]
      constructor
      case fresh => exact fun _ _ h _ => .inr h
      case keeps => exact fun _ _ h => .inl h
      all_goals simp [Body.refreshing]
    · rw [hc]
      constructor
      case fresh => exact fresh_update _ _ _ _
      case acquired => exact fun _ => ⟨⟨u,s.clock p⟩,by simp,rfl⟩
      case grants => exact fun _ => hst
      case keeps =>
        intro r' w hw
        by_cases hr : r' = r
        · subst hr
          obtain ⟨e,he,hu⟩ := hw
          exact .inr (.inr ⟨e,he,hu,hst e he⟩)
        · exact .inl (holds_update_of_ne _ _ _ _ _ hr hw)
      all_goals simp [Body.refreshing]
  | refresh i =>
    simp only [serve]
    rcases refresh_cases (s.clock p) (s.table p) r u with ⟨hc,hno⟩ | ⟨hc,hh⟩
    · rw [hc]
      constructor
      case fresh => exact fun _ _ h _ => .inr h
      case refreshed => exact fun _ _ => hno
      case keeps => exact fun _ _ h => .inl h
      all_goals simp [Body.refreshing]
    · rw [hc]
      constructor
      case fresh => exact fresh_update _ _ _ _
      case keeps =>
        intro r' w hw
        by_cases hr : r' = r
        · subst hr
          rw [holds_unique _ _ _ _ hw hh]
          exact .inl ⟨⟨u,s.clock p⟩,by simp,rfl⟩
        · exact .inl (holds_update_of_ne _ _ _ _ _ hr hw)
      all_goals simp [Body.refreshing]
  | release =>
    simp only [serve]
    rcases release_cases (s.table p) r u with hc | ⟨hc,hh⟩
    · rw [hc]
      constructor
      case fresh => exact fun _ _ h _ => .inr h
      case keeps => exact fun _ _ h => .inl h
      all_goals simp
    · rw [hc]
      constructor
      case fresh =>
        intro r' e he _
        by_cases hr : r' = r
        · subst hr
          simp at he
        · rw [Function.update_of_ne hr] at he
          exact .inr he
      case keeps =>
        intro r' w hw
        by_cases hr : r' = r
        · subst hr
          exact .inr (.inl ⟨rfl,holds_unique _ _ _ _ hh hw⟩)
        · exact .inl (holds_update_of_ne _ _ _ _ _ hr hw)
      all_goals simp
  | acquired ok => cases hreq
  | refreshed i ok => cases hreq

variable (s : State n)

theorem mem_served (k j : Packet n) (hj : j ∈ (s.served validity k).net) :
    j ∈ s.net ∨ ∃ b ∈ (serve validity (s.clock k.peer) (s.table k.peer) k.uid k.resource k.body).2,
      j = { k with body := b } := by
  rcases List.mem_append.mp hj with hj | hj
  · obtain ⟨b,hb,rfl⟩ := List.mem_map.mp hj
    exact .inr ⟨b,by simpa using hb,rfl⟩
  · exact .inl (List.mem_of_mem_erase hj)

theorem served_inv (h : Inv validity s) (k : Packet n)
    (hk : k ∈ s.net) (hreq : k.body.isRequest) : Inv validity (s.served validity k) := by
  have hs := serve_serves validity s k hreq
  have htable : (s.served validity k).table = Function.update s.table k.peer
      (serve validity (s.clock k.peer) (s.table k.peer) k.uid k.resource k.body).1 := rfl
  have hkeeps : ∀ u a p, s.attempts u = some a → Active a →
      s.lapsed p u ∨ Holds (s.table p) a.resource u →
      s.lapsed p u ∨ Holds ((s.served validity k).table p) a.resource u := by
    intro u a p ha hact hold
    rcases hold with hl | hh
    · exact .inl hl
    · by_cases hp : p = k.peer
      · subst hp
        rw [htable, Function.update_self]
        rcases hs.keeps _ _ hh with hh | ⟨hb,rfl⟩ | ⟨e,he,rfl,hst⟩
        · exact .inr hh
        · exact absurd hact (h.quiet k hk hb a ha)
        · exact .inl (h.entry _ _ e he hst)
      · rw [htable, Function.update_of_ne hp]
        exact .inr hh
  constructor
  case empty => exact h.empty
  case entry =>
    intro p r e he hst
    by_cases hp : p = k.peer
    · subst hp
      rw [htable, Function.update_self] at he
      rcases hs.fresh r e he hst with hv | he
      · exact h.empty hv _ _
      · exact h.entry _ r e he hst
    · rw [htable, Function.update_of_ne hp] at he
      exact h.entry p r e he hst
  case owner =>
    intro j hj
    rcases mem_served s k j hj with hj | ⟨b,-,rfl⟩
    · exact h.owner j hj
    · exact h.owner k hk
  case quiet =>
    intro j hj hb
    rcases mem_served s k j hj with hj | ⟨b,hb',rfl⟩
    · exact h.quiet j hj hb
    · exact absurd hb (hs.request b hb')
  case early =>
    intro j hj hb
    rcases mem_served s k j hj with hj | ⟨b,hb',rfl⟩
    · exact h.early j hj hb
    · exact h.early k hk (hs.refreshing b hb' hb)
  case idle => exact h.idle
  case kept =>
    intro u a p ha hact hv
    rcases hv with hv | hv
    · exact hkeeps u a p ha hact (h.kept u a p ha hact (.inl hv))
    · rcases mem_served s k _ hv with hv | ⟨b,hb,he⟩
      · exact hkeeps u a p ha hact (h.kept u a p ha hact (.inr hv))
      · obtain ⟨hp,hu,hr,hbody⟩ := Packet.mk.inj he
        subst hp hu hbody
        rw [htable, Function.update_self, hr]
        exact .inr (hs.acquired hb)
  case quorum => exact h.quorum
  case refused =>
    intro u a p ha hact hv hno
    rcases hno with ⟨i,hi⟩ | hno
    · rcases mem_served s k _ hi with hi | ⟨b,hb,he⟩
      · exact h.refused u a p ha hact hv (.inl ⟨i,hi⟩)
      · obtain ⟨hp,hu,hr,hbody⟩ := Packet.mk.inj he
        subst hp hu hbody
        refine (h.kept _ a _ ha hact (.inl hv)).resolve_right ?_
        rw [hr]
        exact hs.refreshed i hb
    · exact h.refused u a p ha hact hv (.inr hno)

/-- Every transition keeps the invariant. -/
theorem step_inv (s t : State n) (h : Inv validity s) (hst : Step validity s t) :
    Inv validity t := by
  cases step_effect s t h hst with
  | start u r hu => exact start_inv s h u r hu
  | serve k hk hreq => exact served_inv s h k hk hreq
  | move u a a' out events net ha hsub hm => exact moves_inv s h u a a' out events net ha hsub hm
  | sweep p => exact sweep_inv s h p
  | tick p now => exact tick_inv s h p now
  | lose net hsub => exact lose_inv s h net hsub

theorem run_inv (h : Run validity s) : Inv validity s :=
  Reachable.invariant _ (fun _ h0 => h0 ▸ initial_inv) step_inv s h

/-- A round cannot lose a guard whose leases all stand: the peers that answer
no are outside the guard's quorum. -/
theorem round_keeps (h : Inv validity s) (u : String) (a : Attempt n)
    (g : Fin n → Option Answer) (ha : s.attempts u = some a) (hstand : ∀ p, ¬s.lapsed p u)
    (hh : a.phase = .held) (hl : a.lost = false) (hr : a.round = some g) :
    quorumLost g = false := by
  have hdisj : Disjoint (answersOf a.votes .yes) (answersOf g .no) := by
    rw [Finset.disjoint_left]
    intro p hy hn
    have hy' : a.votes p = some .yes := by simpa [answersOf] using hy
    have hn' : g p = some .no := by simpa [answersOf] using hn
    exact hstand p (h.refused u a p ha (.inr ⟨hh,hl⟩) hy' (.inr ⟨g,hr,hn'⟩))
  have hcard := Finset.card_union_of_disjoint hdisj
  have hle : (answersOf a.votes .yes ∪ answersOf g .no).card ≤ n := by
    simpa using Finset.card_le_univ (answersOf a.votes .yes ∪ answersOf g .no)
  have hq := h.quorum u a ha (.inl hh)
  rw [quorumLost, decide_eq_false_iff_not, tolerance]
  omega

def Unlost (s : State n) : Prop :=
  ∀ u a, s.attempts u = some a → (∀ p, ¬s.lapsed p u) → a.lost = false

theorem set_unlost (h : Unlost s) (u : String) (a' : Attempt n)
    (out : List (Packet n)) (events : List (Event n)) (net : List (Packet n))
    (hl : (∀ p, ¬s.lapsed p u) → a'.lost = false) :
    Unlost ({ s with net := net }.setAttempt u a' out events) := by
  intro w b hb hstand
  by_cases hw : w = u
  · subst hw
    obtain rfl : a' = b := by simpa [State.setAttempt] using hb
    exact hl hstand
  · exact h w b (by simpa [State.setAttempt, hw] using hb) hstand

theorem vote_lost (a : Attempt n) (p : Fin n) (x : Answer) : (a.vote p x).lost = a.lost := by
  rw [Attempt.vote]
  split_ifs <;> rfl

theorem refreshAnswer_lost (a : Attempt n) (k : ℕ) (p : Fin n) (x : Answer) :
    (a.refreshAnswer k p x).lost = a.lost := by
  rw [Attempt.refreshAnswer]
  split_ifs <;> rfl

theorem receive_lost (a : Attempt n) (p : Fin n) (b : Body) : (a.receive p b).lost = a.lost := by
  cases b with
  | acquired ok => exact vote_lost a p _
  | refreshed k ok => exact refreshAnswer_lost a k p _
  | _ => rfl

theorem decide_lost (a : Attempt n) : a.decide.lost = a.lost := by
  rw [Attempt.decide]
  split_ifs <;> rfl

theorem finishRound_lost (h : Inv validity s) (hu : Unlost s) (u : String)
    (a : Attempt n) (g : Fin n → Option Answer) (ha : s.attempts u = some a)
    (hr : a.round = some g) (hstand : ∀ p, ¬s.lapsed p u) : (a.finishRound g).lost = false := by
  have hl := hu u a ha hstand
  by_cases hh : a.phase = .held
  · simp [Attempt.finishRound, hl, round_keeps s h u a g ha hstand hh hl hr]
  · simp [Attempt.finishRound, hl, hh]

theorem step_unlost (s t : State n) (h : Inv validity s) (hu : Unlost s)
    (hst : Step validity s t) : Unlost t := by
  cases hst with
  | start u r hu' => exact set_unlost s hu u _ _ [] s.net (fun _ => rfl)
  | reply k a hk hreq ha =>
    exact set_unlost s hu _ _ [] [] _ (fun hs => (receive_lost ..).trans (hu _ a ha hs))
  | voteTimeout u a p ha =>
    exact set_unlost s hu u _ [] [] s.net (fun hs => (vote_lost ..).trans (hu u a ha hs))
  | refreshTimeout u a p ha =>
    exact set_unlost s hu u _ [] [] s.net (fun hs => (refreshAnswer_lost ..).trans (hu u a ha hs))
  | decide u a ha hw hall =>
    exact set_unlost s hu u _ _ _ s.net (fun hs => (decide_lost a).trans (hu u a ha hs))
  | drop u a ha hh => exact set_unlost s hu u _ _ [] s.net (hu u a ha)
  | startRound u a ha hh hl hr => exact set_unlost s hu u _ _ [] s.net (hu u a ha)
  | finishRound u a g ha hr hall =>
    exact set_unlost s hu u _ _ [] s.net (finishRound_lost s h hu u a g ha hr)
  | serve k hk hreq => exact hu
  | sweep p => exact hu
  | tick p now hnow => exact fun u a ha hs => hu u a ha fun q hl => hs q (.inl hl)
  | lose k hk => exact hu

theorem run_unlost (h : Run validity s) : Unlost s := by
  refine (Reachable.invariant (fun s => Inv validity s ∧ Unlost s) ?_ ?_ s h).2
  · rintro _ rfl
    exact ⟨initial_inv,fun u a ha => by cases ha⟩
  · exact fun s t hs hst => ⟨step_inv s t hs.1 hst,step_unlost s t hs.1 hs.2 hst⟩

def soloAsked : State 1 :=
  (initial 60).setAttempt "u" { resource := "key" } (toPeers (List.finRange 1) "u" "key" .acquire) []

def soloGranted : State 1 := soloAsked.served 60 ⟨0,"u","key",.acquire⟩

def soloVotes : Attempt 1 := Attempt.vote { resource := "key" } 0 .yes

def soloVoted : State 1 := { soloGranted with net := [] }.setAttempt "u" soloVotes [] []

def soloHeld : State 1 := soloVoted.setAttempt "u" soloVotes.decide [] [.acquired "u"]

theorem soloHeld_run : Run 60 soloHeld := by
  have h1 : Run 60 soloAsked := .step _ _ (.init _ rfl) (.start _ "u" "key" rfl)
  have h2 : Run 60 soloGranted := .step _ _ h1 (.serve _ ⟨0,"u","key",.acquire⟩ (by decide) rfl)
  have h3 : Run 60 soloVoted := .step _ _ h2
    (.reply soloGranted ⟨0,"u","key",.acquired true⟩ { resource := "key" } (by decide) rfl rfl)
  exact .step _ _ h3 (.decide _ "u" soloVotes rfl rfl (by decide))

end Openlake.LockSafety
