import Openlake.LockSafety

/-!
# What the fence check tells the holder

The refresh task declares a guard lost only when more peers than the quorum
tolerates answer that they have no entry; a peer that cannot be reached is
neutral. A guard that passes the check may therefore have been displaced, but
only at peers where its lease lapsed first.
-/

set_option autoImplicit false

namespace Openlake.LockLoss
open LockServer Dsync LockInvariant LockClient LockSafety Lib.Protocol

variable {n : ℕ} {validity : ℕ}

/-- The event `e` was logged after `u` got its guard; the log is newest first. -/
def Since (log : List (Event n)) (u : String) (e : Event n) : Prop :=
  ∃ later earlier, log = later ++ .acquired u :: earlier ∧ e ∈ later

theorem Since.mem {log : List (Event n)} {u : String} {e : Event n} (h : Since log u e) :
    .acquired u ∈ log ∧ e ∈ log := by
  obtain ⟨later,earlier,rfl,he⟩ := h
  simp [he]

theorem since_cons (x : Event n) (log : List (Event n)) (u : String) (e : Event n)
    (h : Since (x :: log) u e) : (e = x ∧ .acquired u ∈ log) ∨ Since log u e := by
  obtain ⟨later,earlier,hlog,he⟩ := h
  cases later with
  | nil => cases he
  | cons y later =>
    obtain ⟨rfl,rfl⟩ := List.cons.inj hlog
    rcases List.mem_cons.mp he with rfl | he
    · exact .inl ⟨rfl,by simp⟩
    · exact .inr ⟨later,earlier,rfl,he⟩

theorem since_append (events log : List (Event n)) (u : String) (e : Event n)
    (h : Since (events ++ log) u e) :
    Since log u e ∨ (e ∈ events ∧ .acquired u ∈ events ++ log) := by
  induction events with
  | nil => exact .inl h
  | cons x events ih =>
    rcases since_cons x _ u e h with ⟨rfl,hu⟩ | h
    · exact .inr ⟨List.mem_cons_self,List.mem_cons_of_mem _ hu⟩
    · rcases ih h with h | ⟨he,hu⟩
      · exact .inl h
      · exact .inr ⟨List.mem_cons_of_mem _ he,List.mem_cons_of_mem _ hu⟩

structure LogInv (s : State n) : Prop where
  done : ∀ v, .acquired v ∈ s.log →
    ∃ b, s.attempts v = some b ∧ (b.phase = .held ∨ b.phase = .dropped)
  displaced : ∀ u a v p, s.attempts u = some a → a.phase = .held → a.lost = false → v ≠ u →
    a.votes p = some .yes → Since s.log u (.granted p v a.resource) → s.lapsed p u
  contested : ∀ u a v b p, s.attempts u = some a → a.phase = .held → a.lost = false → v ≠ u →
    s.attempts v = some b → b.resource = a.resource → Since s.log u (.acquired v) →
    a.votes p = some .yes → b.votes p = some .yes → s.lapsed p u ∨ s.lapsed p v

theorem initial_logInv : LogInv (initial validity : State n) := by
  constructor <;> simp [initial]

theorem same_logInv (s t : State n) (h : LogInv s) (hatt : t.attempts = s.attempts)
    (hlog : t.log = s.log) (hlapsed : ∀ p u, s.lapsed p u → t.lapsed p u) : LogInv t := by
  constructor
  case done =>
    rw [hatt, hlog]
    exact h.done
  case displaced =>
    rw [hatt, hlog]
    intro u a v p ha hh hl hv hvote hs
    exact hlapsed p u (h.displaced u a v p ha hh hl hv hvote hs)
  case contested =>
    rw [hatt, hlog]
    intro u a v b p ha hh hl hv hb hr hs hvote hvote'
    exact (h.contested u a v b p ha hh hl hv hb hr hs hvote hvote').imp (hlapsed p u) (hlapsed p v)

variable (s : State n)

theorem start_logInv (h : LogInv s) (w r : String) (hw : s.attempts w = none)
    (out : List (Packet n)) : LogInv (s.setAttempt w { resource := r } out []) := by
  have hnew : ∀ v, .acquired v ∈ s.log → v ≠ w := by
    rintro v hv rfl
    obtain ⟨b,hb,-⟩ := h.done v hv
    rw [hw] at hb
    cases hb
  have hold : ∀ v b, .acquired v ∈ s.log →
      (Function.update s.attempts w (some { resource := r })) v = some b →
      s.attempts v = some b := by
    intro v b hv hb
    rwa [Function.update_of_ne (hnew v hv)] at hb
  constructor
  case done =>
    intro v hv
    obtain ⟨b,hb,hph⟩ := h.done v hv
    exact ⟨b,by rw [State.setAttempt]; simpa [hnew v hv] using hb,hph⟩
  case displaced =>
    intro u a v p ha hh hl hv hvote hs
    exact h.displaced u a v p (hold u a hs.mem.1 ha) hh hl hv hvote hs
  case contested =>
    intro u a v b p ha hh hl hv hb hr hs hvote hvote'
    exact h.contested u a v b p (hold u a hs.mem.1 ha) hh hl hv (hold v b hs.mem.2 hb) hr hs
      hvote hvote'

theorem mem_grantEvent (p : Fin n) (u r : String) (reply : Option Body) (e : Event n)
    (he : e ∈ grantEvent p u r reply) : e = .granted p u r ∧ .acquired true ∈ reply := by
  unfold grantEvent at he
  split at he
  · exact ⟨List.mem_singleton.mp he,rfl⟩
  · cases he

theorem served_logInv (hinv : Inv validity s) (h : LogInv s) (k : Packet n)
    (hreq : k.body.isRequest) : LogInv (s.served validity k) := by
  have hserves := serve_serves validity s k hreq
  have hevent : ∀ e, e ∈ grantEvent k.peer k.uid k.resource
      (serve validity (s.clock k.peer) (s.table k.peer) k.uid k.resource k.body).2 →
      e = .granted k.peer k.uid k.resource ∧
      .acquired true ∈
        (serve validity (s.clock k.peer) (s.table k.peer) k.uid k.resource k.body).2 :=
    fun e he => mem_grantEvent _ _ _ _ e he
  constructor
  case done =>
    intro v hv
    rcases List.mem_append.mp hv with hv | hv
    · cases (hevent _ hv).1
    · exact h.done v hv
  case displaced =>
    intro u a v p ha hh hl hv hvote hs
    rcases since_append _ _ _ _ hs with hs | ⟨he,-⟩
    · exact h.displaced u a v p ha hh hl hv hvote hs
    · obtain ⟨he,hreply⟩ := hevent _ he
      obtain ⟨rfl,rfl,hr⟩ := Event.granted.inj he
      rcases hinv.kept u a _ ha (.inr ⟨hh,hl⟩) (.inl hvote) with hlapsed | ⟨e,hent,rfl⟩
      · exact hlapsed
      · rw [hr] at hent
        exact hinv.entry _ _ e hent (hserves.grants hreply e hent)
  case contested =>
    intro u a v b p ha hh hl hv hb hr hs hvote hvote'
    rcases since_append _ _ _ _ hs with hs | ⟨he,-⟩
    · exact h.contested u a v b p ha hh hl hv hb hr hs hvote hvote'
    · cases (hevent _ he).1

/-- What the log says of an attempt that had its guard before a move of `w`
is still true of the attempt after it. -/
theorem move_before (h : LogInv s) (w : String) (c c' : Attempt n)
    (out : List (Packet n)) (events : List (Event n)) (hc : s.attempts w = some c)
    (hm : Moves s w c c' out events) (v : String) (b : Attempt n) (hv : .acquired v ∈ s.log)
    (hb : (Function.update s.attempts w (some c')) v = some b) :
    ∃ b₀, s.attempts v = some b₀ ∧ b₀.votes = b.votes ∧ b₀.resource = b.resource ∧
      (Active b → b₀.phase = .held ∧ b₀.lost = false) := by
  obtain ⟨b₀,hb₀,hph⟩ := h.done v hv
  have hnw : b₀.phase ≠ .waiting := by rcases hph with hph | hph <;> simp [hph]
  have hact : Active b₀ → b₀.phase = .held ∧ b₀.lost = false := fun ha => ha.resolve_left hnw
  by_cases hvw : v = w
  · subst hvw
    rw [Function.update_self] at hb
    obtain rfl := Option.some.inj hb
    obtain rfl := Option.some.inj (hc.symm.trans hb₀)
    exact ⟨c,hc,(hm.frozen hnw).symm,hm.resource.symm,fun ha => hact (hm.active ha)⟩
  · rw [Function.update_of_ne hvw, hb₀] at hb
    obtain rfl := Option.some.inj hb
    exact ⟨b₀,hb₀,rfl,rfl,hact⟩

theorem move_logInv (hinv : Inv validity s) (h : LogInv s) (w : String)
    (c c' : Attempt n) (out : List (Packet n)) (events : List (Event n)) (net : List (Packet n))
    (hc : s.attempts w = some c) (hm : Moves s w c c' out events) :
    LogInv ({ s with net := net }.setAttempt w c' out events) := by
  constructor
  case done =>
    intro v hv
    by_cases hvw : v = w
    · subst hvw
      refine ⟨c',Function.update_self ..,?_⟩
      rcases List.mem_append.mp hv with hv | hv
      · exact .inl (hm.logged _ hv).2.2
      · obtain ⟨b,hb,hph⟩ := h.done v hv
        obtain rfl := Option.some.inj (hc.symm.trans hb)
        exact hm.decided hph
    · rcases List.mem_append.mp hv with hv | hv
      · exact absurd (Event.acquired.inj (hm.logged _ hv).1) hvw
      · obtain ⟨b,hb,hph⟩ := h.done v hv
        exact ⟨b,by rw [State.setAttempt]; simpa [hvw] using hb,hph⟩
  case displaced =>
    intro u a v p ha hh hl hv hvote hs
    rcases since_append _ _ _ _ hs with hs | ⟨he,-⟩
    · obtain ⟨a₀,ha₀,hvotes,hres,hact⟩ := move_before s h w c c' out events hc hm u a hs.mem.1 ha
      obtain ⟨hh₀,hl₀⟩ := hact (.inr ⟨hh,hl⟩)
      rw [← hvotes] at hvote
      rw [← hres] at hs
      exact h.displaced u a₀ v p ha₀ hh₀ hl₀ hv hvote hs
    · cases (hm.logged _ he).1
  case contested =>
    intro u a v b p ha hh hl hv hb hr hs hvote hvote'
    have hu : .acquired u ∈ s.log := by
      rcases since_append _ _ _ _ hs with hs | ⟨he,hu⟩
      · exact hs.mem.1
      · rcases List.mem_append.mp hu with hu | hu
        · have hvw := Event.acquired.inj (hm.logged _ he).1
          have huw := Event.acquired.inj (hm.logged _ hu).1
          exact absurd (hvw.trans huw.symm) hv
        · exact hu
    obtain ⟨a₀,ha₀,hvotes,hres,hact⟩ := move_before s h w c c' out events hc hm u a hu ha
    obtain ⟨hh₀,hl₀⟩ := hact (.inr ⟨hh,hl⟩)
    rw [← hvotes] at hvote
    rcases since_append _ _ _ _ hs with hs | ⟨he,-⟩
    · obtain ⟨b₀,hb₀,hvotes',hres',-⟩ := move_before s h w c c' out events hc hm v b hs.mem.2 hb
      rw [← hvotes'] at hvote'
      exact h.contested u a₀ v b₀ p ha₀ hh₀ hl₀ hv hb₀ (by rw [hres', hr, hres]) hs hvote hvote'
    · obtain ⟨hev,hw,-⟩ := hm.logged _ he
      obtain rfl := Event.acquired.inj hev
      obtain rfl : c' = b := by simpa [State.setAttempt] using hb
      have hkept := hinv.kept u a₀ p ha₀ (.inr ⟨hh₀,hl₀⟩) (.inl hvote)
      have hkept' := hinv.kept v c p hc (.inl hw) (hm.votes p hvote')
      rw [← hm.resource, hr, ← hres] at hkept'
      rcases hkept with hlapsed | hholds
      · exact .inl hlapsed
      · refine .inr (hkept'.resolve_right fun hholds' => ?_)
        exact hv (holds_unique _ _ _ _ hholds' hholds)

theorem step_logInv (s t : State n) (hinv : Inv validity s) (h : LogInv s)
    (hst : Step validity s t) : LogInv t := by
  cases step_effect s t hinv hst with
  | start u r hu => exact start_logInv s h u r hu _
  | serve k hk hreq => exact served_logInv s hinv h k hreq
  | move u a a' out events net ha hsub hm => exact move_logInv s hinv h u a a' out events net ha hm
  | sweep p => exact same_logInv s _ h rfl rfl (fun _ _ => id)
  | tick p now => exact same_logInv s _ h rfl rfl (fun _ _ => .inl)
  | lose net hsub => exact same_logInv s _ h rfl rfl (fun _ _ => id)

theorem run_logInv (h : Run validity s) : LogInv s := by
  refine (Reachable.invariant (fun s => Inv validity s ∧ LogInv s) ?_ ?_ s h).2
  · rintro _ rfl
    exact ⟨initial_inv,initial_logInv⟩
  · exact fun s t hs hst => ⟨step_inv s t hs.1 hst,step_logInv s t hs.1 hs.2 hst⟩

theorem check_ok_iff (a : Attempt n) : check a = .ok () ↔ a.lost = false := by
  cases h : a.lost <;> simp [check, h]

def displacedLog : List (Event 3) :=
  [.acquired "v",.granted 2 "v" "key",.granted 1 "v" "key",.acquired "u",.granted 1 "u" "key",
    .granted 0 "u" "key"]

/-- The holder reaches only peer 0 in its refresh round, its lease lapses at
peer 1, and a second client then gets peers 1 and 2. -/
theorem displaced_run : ∃ (s : State 3) (a : Attempt 3), Run 60 s ∧ s.attempts "u" = some a ∧
    a.phase = .held ∧ a.resource = "key" ∧ check a = .ok () ∧ s.log = displacedLog ∧
    answersOf a.votes .yes = {0,1} := by
  have h0 : Run 60 (initial 60 : State 3) := .init _ rfl
  have h1 := h0.step _ _ (.start _ "u" "key" rfl)
  have h2 := h1.step _ _ (.serve _ ⟨0,"u","key",.acquire⟩ (by decide) rfl)
  have h3 := h2.step _ _ (.serve _ ⟨1,"u","key",.acquire⟩ (by decide) rfl)
  have h4 := h3.step _ _ (.reply _ ⟨0,"u","key",.acquired true⟩ _ (by decide) rfl rfl)
  have h5 := h4.step _ _ (.reply _ ⟨1,"u","key",.acquired true⟩ _ (by decide) rfl rfl)
  have h6 := h5.step _ _ (.voteTimeout _ "u" _ 2 rfl)
  have h7 := h6.step _ _ (.decide _ "u" _ rfl rfl (by decide))
  have h8 := h7.step _ _ (.startRound _ "u" _ rfl rfl rfl rfl)
  have h9 := h8.step _ _ (.serve _ ⟨0,"u","key",.refresh 1⟩ (by decide) rfl)
  have h10 := h9.step _ _ (.reply _ ⟨0,"u","key",.refreshed 1 true⟩ _ (by decide) rfl rfl)
  have h11 := h10.step _ _ (.refreshTimeout _ "u" _ 1 rfl)
  have h12 := h11.step _ _ (.refreshTimeout _ "u" _ 2 rfl)
  have h13 := h12.step _ _ (.finishRound _ "u" _ _ rfl rfl (by decide))
  have h14 := h13.step _ _ (.tick _ 1 60 (by decide))
  have h15 := h14.step _ _ (.start _ "v" "key" rfl)
  have h16 := h15.step _ _ (.serve _ ⟨1,"v","key",.acquire⟩ (by decide) rfl)
  have h17 := h16.step _ _ (.serve _ ⟨2,"v","key",.acquire⟩ (by decide) rfl)
  have h18 := h17.step _ _ (.reply _ ⟨1,"v","key",.acquired true⟩ _ (by decide) rfl rfl)
  have h19 := h18.step _ _ (.reply _ ⟨2,"v","key",.acquired true⟩ _ (by decide) rfl rfl)
  have h20 := h19.step _ _ (.voteTimeout _ "v" _ 0 rfl)
  have h21 := h20.step _ _ (.decide _ "v" _ rfl rfl (by decide))
  exact ⟨_,_,h21,rfl,rfl,rfl,rfl,by decide,by decide⟩

theorem displacedLog_since :
    Since displacedLog "u" (.acquired "v") ∧
    ∀ p ∈ ({1,2} : Finset (Fin 3)), Since displacedLog "u" (.granted p "v" "key") := by
  have hsplit : displacedLog =
      ([.acquired "v",.granted 2 "v" "key",.granted 1 "v" "key"] : List (Event 3)) ++
        ([.acquired "u",.granted 1 "u" "key",.granted 0 "u" "key"] : List (Event 3)) := rfl
  exact ⟨⟨_,_,hsplit,by decide⟩,fun p hp => ⟨_,_,hsplit,by revert p; decide⟩⟩

end Openlake.LockLoss
