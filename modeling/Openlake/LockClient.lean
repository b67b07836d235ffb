import Openlake.LockInvariant

/-!
# The client's transitions

Each transition of an attempt is one of the `Moves` that keep the invariant;
a new attempt sends its requests under a uid nobody has used.
-/

set_option autoImplicit false

namespace Openlake.LockClient
open LockServer Dsync LockInvariant

variable {n : ℕ} {validity : ℕ}

theorem setOnce_some (f : Fin n → Option Answer) (p q : Fin n) (x y : Answer)
    (h : setOnce f p x q = some y) : f q = some y ∨ (q = p ∧ y = x) := by
  rw [setOnce] at h
  split_ifs at h
  · by_cases hq : q = p
    · subst hq
      rw [Function.update_self] at h
      exact .inr ⟨rfl,(Option.some.inj h).symm⟩
    · rw [Function.update_of_ne hq] at h
      exact .inl h
  · exact .inl h

theorem mem_toPeers (ps : List (Fin n)) (u r : String) (b : Body) (k : Packet n)
    (hk : k ∈ toPeers ps u r b) : k.uid = u ∧ k.resource = r ∧ k.body = b := by
  obtain ⟨p,-,rfl⟩ := List.mem_map.mp hk
  exact ⟨rfl,rfl,rfl⟩

variable (s : State n)

section

variable (h : Inv validity s)

include h

theorem refl_moves (u : String) (a : Attempt n)
    (ha : s.attempts u = some a) : Moves s u a a [] [] where
  resource := rfl
  active := id
  waiting := id
  idle := h.idle u a ha
  votes := fun _ => .inl
  frozen := fun _ => rfl
  quorum := h.quorum u a ha
  noes := fun _ g hg hp => .inr ⟨g,hg,hp⟩
  sent := by simp
  outRelease := by simp
  outRefresh := by simp
  decided := id
  logged := by simp

theorem vote_moves (u : String) (a : Attempt n) (p : Fin n)
    (x : Answer) (ha : s.attempts u = some a)
    (hx : x = .yes → ⟨p,u,a.resource,.acquired true⟩ ∈ s.net) : Moves s u a (a.vote p x) [] [] := by
  by_cases hw : a.phase = .waiting
  · have hv : a.vote p x = { a with votes := setOnce a.votes p x } := by simp [Attempt.vote, hw]
    rw [hv]
    constructor
    case votes =>
      intro q hq
      rcases setOnce_some a.votes p q x .yes hq with hq | ⟨rfl,hy⟩
      · exact .inl hq
      · exact .inr (hx hy.symm)
    case frozen => exact fun hne => absurd hw hne
    case quorum => simp [hw]
    case idle => exact fun _ => h.idle u a ha hw
    case noes => exact fun p g hg hp => .inr ⟨g,hg,hp⟩
    all_goals simp [Active]
  · have hv : a.vote p x = a := by simp [Attempt.vote, hw]
    rw [hv]
    exact refl_moves s h u a ha

theorem refreshAnswer_moves (u : String) (a : Attempt n)
    (k : ℕ) (p : Fin n) (x : Answer) (ha : s.attempts u = some a)
    (hx : x = .no → ∃ i, ⟨p,u,a.resource,.refreshed i false⟩ ∈ s.net) :
    Moves s u a (a.refreshAnswer k p x) [] [] := by
  rw [Attempt.refreshAnswer]
  split_ifs with hk
  · constructor
    case idle =>
      intro hw
      simp only [h.idle u a ha hw, Option.map_none]
    case votes => exact fun _ => .inl
    case frozen => exact fun _ => rfl
    case quorum => exact h.quorum u a ha
    case noes =>
      intro q g' hg' hq
      obtain ⟨g,hg,rfl⟩ := Option.map_eq_some_iff.mp hg'
      rcases setOnce_some g p q x .no hq with hq | ⟨rfl,hy⟩
      · exact .inr ⟨g,hg,hq⟩
      · exact .inl (hx hy.symm)
    all_goals simp [Active]
  · exact refl_moves s h u a ha

theorem reply_moves (k : Packet n) (a : Attempt n)
    (hk : k ∈ s.net) (ha : s.attempts k.uid = some a) :
    Moves s k.uid a (a.receive k.peer k.body) [] [] := by
  obtain ⟨p,u,r,body⟩ := k
  obtain ⟨b,hb,hr⟩ := h.owner _ hk
  obtain rfl := Option.some.inj (ha.symm.trans hb)
  obtain rfl : a.resource = r := hr
  cases body with
  | acquired ok =>
    refine vote_moves s h u a p (answer ok) ha fun hy => ?_
    cases ok with
    | false => simp [answer] at hy
    | true => exact hk
  | refreshed i ok =>
    refine refreshAnswer_moves s h u a i p (answer ok) ha fun hy => ?_
    cases ok with
    | false => exact ⟨i,hk⟩
    | true => simp [answer] at hy
  | acquire => exact refl_moves s h u a ha
  | refresh i => exact refl_moves s h u a ha
  | release => exact refl_moves s h u a ha

theorem decide_moves (u : String) (a : Attempt n)
    (ha : s.attempts u = some a) (hw : a.phase = .waiting) :
    Moves s u a a.decide (a.strayReleases u) (a.acquisition u) := by
  have hround := h.idle u a ha hw
  rw [Attempt.decide, Attempt.strayReleases, Attempt.acquisition]
  split_ifs with hq
  · constructor
    case active => exact fun _ => .inl hw
    case waiting => exact fun _ => hw
    case votes => exact fun _ => .inl
    case frozen => exact fun _ => rfl
    case quorum => exact fun _ => hq
    case noes => simp [hround]
    case logged => simp [hw]
    all_goals simp
  · constructor
    case active => simp [Active]
    case waiting => exact fun _ => hw
    case votes => exact fun _ => .inl
    case frozen => exact fun _ => rfl
    case quorum => simp
    case noes => simp [hround]
    case sent =>
      intro k hk
      obtain ⟨hu,hr,hb⟩ := mem_toPeers _ _ _ _ k hk
      exact ⟨hu,hr,by rw [hb]; rfl⟩
    case outRelease => simp [Active]
    case decided => simp [hw]
    all_goals simp

theorem drop_moves (u : String) (a : Attempt n)
    (ha : s.attempts u = some a) (hh : a.phase = .held) :
    Moves s u a { a with phase := .dropped } (toPeers (List.finRange n) u a.resource .release)
      [] := by
  constructor
  case active => simp [Active]
  case votes => exact fun _ => .inl
  case frozen => exact fun _ => rfl
  case quorum => exact fun _ => h.quorum u a ha (.inl hh)
  case noes => exact fun q g hg hq => .inr ⟨g,hg,hq⟩
  case sent =>
    intro k hk
    obtain ⟨hu,hr,hb⟩ := mem_toPeers _ _ _ _ k hk
    exact ⟨hu,hr,by rw [hb]; rfl⟩
  case outRelease => simp [Active]
  all_goals simp

theorem startRound_moves (u : String) (a : Attempt n)
    (ha : s.attempts u = some a) (hh : a.phase = .held) :
    Moves s u a a.startRound (toPeers (List.finRange n) u a.resource (.refresh (a.rounds+1)))
      [] := by
  constructor
  case active => exact id
  case waiting => exact id
  case votes => exact fun _ => .inl
  case frozen => exact fun _ => rfl
  case quorum => exact h.quorum u a ha
  case noes =>
    intro q g hg hq
    obtain rfl := Option.some.inj hg
    cases hq
  case sent =>
    intro k hk
    obtain ⟨hu,hr,hb⟩ := mem_toPeers _ _ _ _ k hk
    exact ⟨hu,hr,by rw [hb]; rfl⟩
  case outRelease =>
    intro k hk hb
    rw [(mem_toPeers _ _ _ _ k hk).2.2] at hb
    cases hb
  case idle => simp [Attempt.startRound, hh]
  case outRefresh => simp [Attempt.startRound, hh]
  case decided => exact id
  case logged => simp
  case resource => rfl

theorem finishRound_moves (u : String) (a : Attempt n)
    (g : Fin n → Option Answer) (ha : s.attempts u = some a) :
    Moves s u a (a.finishRound g) (a.lossReleases u g) [] := by
  constructor
  case active =>
    rintro (hw | ⟨hh,hl⟩)
    · exact .inl hw
    · simp only [Attempt.finishRound, Bool.or_eq_false_iff] at hl
      exact .inr ⟨hh,hl.1⟩
  case waiting => exact id
  case votes => exact fun _ => .inl
  case frozen => exact fun _ => rfl
  case quorum => exact h.quorum u a ha
  case noes => simp [Attempt.finishRound]
  case sent =>
    intro k hk
    rw [Attempt.lossReleases] at hk
    split_ifs at hk
    · obtain ⟨hu,hr,hb⟩ := mem_toPeers _ _ _ _ k hk
      exact ⟨hu,hr,by rw [hb]; rfl⟩
    · simp at hk
  case outRelease =>
    intro k hk _
    rw [Attempt.lossReleases] at hk
    split_ifs at hk with hc
    · simp only [Bool.and_eq_true, decide_eq_true_eq] at hc
      simp [Active, Attempt.finishRound, hc.1, hc.2]
    · simp at hk
  case outRefresh =>
    intro k hk hb
    rw [Attempt.lossReleases] at hk
    split_ifs at hk
    · rw [(mem_toPeers _ _ _ _ k hk).2.2] at hb
      cases hb
    · simp at hk
  all_goals simp [Attempt.finishRound]

theorem start_inv (u r : String) (hu : s.attempts u = none) :
    Inv validity (s.setAttempt u { resource := r } (toPeers (List.finRange n) u r .acquire) []) := by
  have hnew : ∀ k ∈ s.net, k.uid ≠ u := by
    intro k hk hku
    obtain ⟨a,ha,-⟩ := h.owner k hk
    rw [hku, hu] at ha
    cases ha
  have hself : ∀ b, (Function.update s.attempts u (some { resource := r })) u = some b →
      b = { resource := r } := by
    intro b hb
    rw [Function.update_self] at hb
    exact (Option.some.inj hb).symm
  have hold : ∀ w b, w ≠ u → (Function.update s.attempts u (some { resource := r })) w = some b →
      s.attempts w = some b := by
    intro w b hw hb
    rwa [Function.update_of_ne hw] at hb
  have hsent : ∀ k ∈ toPeers (List.finRange n) u r .acquire ++ s.net,
      k.body ≠ .acquire → k ∈ s.net := by
    intro k hk hb
    rcases List.mem_append.mp hk with hk | hk
    · exact absurd (mem_toPeers _ _ _ _ k hk).2.2 hb
    · exact hk
  constructor
  case empty => exact h.empty
  case entry => exact h.entry
  case owner =>
    intro k hk
    rcases List.mem_append.mp hk with hk | hk
    · obtain ⟨hku,hr,-⟩ := mem_toPeers _ _ _ _ k hk
      exact ⟨_,by rw [hku]; exact Function.update_self ..,hr.symm⟩
    · obtain ⟨a,ha,hr⟩ := h.owner k hk
      exact ⟨a,by rw [State.setAttempt]; simpa [hnew k hk] using ha,hr⟩
  case quiet =>
    intro k hk hb a ha
    have hk' := hsent k hk (by rw [hb]; simp)
    exact h.quiet k hk' hb a (hold _ _ (hnew k hk') ha)
  case early =>
    intro k hk hb a ha
    have hk' := hsent k hk (by intro he; rw [he] at hb; cases hb)
    exact h.early k hk' hb a (hold _ _ (hnew k hk') ha)
  case idle =>
    intro w b hw hph
    by_cases hwu : w = u
    · subst hwu
      rw [hself b hw]
    · exact h.idle w b (hold w b hwu hw) hph
  case kept =>
    intro w b p hw hact hv
    by_cases hwu : w = u
    · subst hwu
      rw [hself b hw] at hv
      rcases hv with hv | hv
      · cases hv
      · exact absurd rfl (hnew _ (hsent _ hv (by simp)))
    · exact h.kept w b p (hold w b hwu hw) hact (hv.imp_right fun hk => hsent _ hk (by simp))
  case quorum =>
    intro w b hw hph
    by_cases hwu : w = u
    · subst hwu
      rw [hself b hw] at hph
      simp at hph
    · exact h.quorum w b (hold w b hwu hw) hph
  case refused =>
    intro w b p hw hact hv hno
    by_cases hwu : w = u
    · subst hwu
      rw [hself b hw] at hv
      cases hv
    · refine h.refused w b p (hold w b hwu hw) hact hv (hno.imp_left ?_)
      rintro ⟨i,hi⟩
      exact ⟨i,hsent _ hi (by simp)⟩

end

theorem step_effect (s t : State n) (h : Inv validity s) (hst : Step validity s t) :
    Effect validity s t := by
  cases hst with
  | start u r hu => exact .start u r hu
  | serve k hk hreq => exact .serve k hk hreq
  | reply k a hk hreq ha =>
    exact .move k.uid a _ [] [] _ ha (fun j hj => List.mem_of_mem_erase hj)
      (reply_moves s h k a hk ha)
  | voteTimeout u a p ha =>
    exact .move u a _ [] [] s.net ha (fun _ => id) (vote_moves s h u a p .offline ha (by simp))
  | refreshTimeout u a p ha =>
    exact .move u a _ [] [] s.net ha (fun _ => id)
      (refreshAnswer_moves s h u a _ p .offline ha (by simp))
  | decide u a ha hw hall =>
    exact .move u a _ _ _ s.net ha (fun _ => id) (decide_moves s h u a ha hw)
  | drop u a ha hh => exact .move u a _ _ [] s.net ha (fun _ => id) (drop_moves s h u a ha hh)
  | startRound u a ha hh hl hr =>
    exact .move u a _ _ [] s.net ha (fun _ => id) (startRound_moves s h u a ha hh)
  | finishRound u a g ha hr hall =>
    exact .move u a _ _ [] s.net ha (fun _ => id) (finishRound_moves s h u a g ha)
  | sweep p => exact .sweep p
  | tick p now hnow => exact .tick p now
  | lose k hk => exact .lose _ (fun j hj => List.mem_of_mem_erase hj)

end Openlake.LockClient
