import Mathlib

/-!
# Chunked sources and drained streams

A source is the list of results its reads return, one chunk or error each; it ends
at an empty chunk or when the list does.

A stream is a step function. One step ends the stream, yields a chunk, or goes
round a loop again without yielding. `Drains` says what reading a stream to
its end or to its first error returns.
-/

set_option autoImplicit false

namespace Lib.Chunks

variable {ε α σ : Type*}

abbrev Source (ε α : Type*) := List (Except ε (List α))

def contents : Source ε α → List α
  | [] => []
  | .error _::_ => []
  | .ok c::rest => if c.isEmpty then [] else c ++ contents rest

def ending : Source ε α → Option ε
  | [] => none
  | .error e::_ => some e
  | .ok c::rest => if c.isEmpty then none else ending rest

inductive Gathered (ε α : Type*) where
  | full (buf carry : List α) (rest : Source ε α)
  | ended (buf : List α)
  | failed (e : ε)

def gather (want : ℕ) (buf carry : List α) (src : Source ε α) : Gathered ε α :=
  let filled := buf ++ carry.take (want-buf.length)
  if want ≤ filled.length then .full filled (carry.drop (want-buf.length)) src
  else
    match src with
    | [] => .ended filled
    | .error e::_ => .failed e
    | .ok c::rest => if c.isEmpty then .ended filled else gather want filled c rest
termination_by structural src

/-- Enough bytes ahead: the buffer is filled with the first of them, and the
rest stays ahead. -/
theorem gather_full (want : ℕ) (buf carry : List α) (src : Source ε α) (hbuf : buf.length ≤ want)
    (h : want ≤ (buf ++ (carry ++ contents src)).length) :
    ∃ carry' rest, gather want buf carry src =
        .full ((buf ++ (carry ++ contents src)).take want) carry' rest ∧
      carry' ++ contents rest = (buf ++ (carry ++ contents src)).drop want ∧
      ending rest = ending src := by
  induction src generalizing buf carry with
  | nil =>
    have hw : want ≤ (buf ++ carry.take (want-buf.length)).length := by
      simp [contents] at h ⊢
      omega
    refine ⟨carry.drop (want-buf.length),[],?_,?_,rfl⟩
    · rw [gather.eq_def, if_pos hw]
      simp [contents, List.take_append, List.take_of_length_le hbuf]
    · simp [contents, List.drop_append, List.drop_of_length_le hbuf]
  | cons r src ih =>
    by_cases hw : want ≤ (buf ++ carry.take (want-buf.length)).length
    · have hc : want-buf.length ≤ carry.length := by
        simp at hw
        omega
      refine ⟨carry.drop (want-buf.length),r::src,?_,?_,rfl⟩
      · rw [gather.eq_def, if_pos hw]
        simp [List.take_append, List.take_of_length_le hbuf, Nat.sub_eq_zero_of_le hc]
      · simp [List.drop_append, List.drop_of_length_le hbuf, Nat.sub_eq_zero_of_le hc]
    · have hc : carry.length ≤ want-buf.length := by
        simp at hw
        omega
      have hfill : buf ++ carry.take (want-buf.length) = buf ++ carry := by
        rw [List.take_of_length_le hc]
      have hlen : (buf ++ carry).length ≤ want := by
        simp
        omega
      rw [gather.eq_def, if_neg hw]
      cases r with
      | error e =>
        simp [contents] at h hw
        omega
      | ok c =>
        by_cases hcempty : c.isEmpty
        · simp [contents, hcempty] at h hw
          omega
        · have hcont : contents (.ok c::src : Source ε α) = c ++ contents src := by
            simp [contents, hcempty]
          have hfail : ending (.ok c::src : Source ε α) = ending src := by
            simp [ending, hcempty]
          simp only [hcempty, hfill, hcont, hfail, Bool.false_eq_true, if_false]
          rw [hcont] at h
          simpa only [List.append_assoc] using
            ih (buf ++ carry) c hlen (by simpa only [List.append_assoc] using h)

/-- Too few bytes ahead: the gathering ends as the source does. -/
theorem gather_short (want : ℕ) (buf carry : List α) (src : Source ε α)
    (h : (buf ++ (carry ++ contents src)).length < want) :
    gather want buf carry src =
      match ending src with
      | none => .ended (buf ++ (carry ++ contents src))
      | some e => .failed e := by
  induction src generalizing buf carry with
  | nil =>
    have hc : carry.length ≤ want-buf.length := by
      simp [contents] at h
      omega
    have hw : ¬want ≤ (buf ++ carry.take (want-buf.length)).length := by
      simp [contents] at h ⊢
      omega
    rw [gather.eq_def, if_neg hw]
    simp [contents, ending, List.take_of_length_le hc]
  | cons r src ih =>
    have hc : carry.length ≤ want-buf.length := by
      simp at h
      omega
    have hw : ¬want ≤ (buf ++ carry.take (want-buf.length)).length := by
      simp at h ⊢
      omega
    rw [gather.eq_def, if_neg hw, List.take_of_length_le hc]
    cases r with
    | error e => rfl
    | ok c =>
      by_cases hcempty : c.isEmpty
      · simp [contents, ending, hcempty]
      · have hcont : contents (.ok c::src : Source ε α) = c ++ contents src := by
          simp [contents, hcempty]
        have hfail : ending (.ok c::src : Source ε α) = ending src := by
          simp [ending, hcempty]
        rw [hcont] at h
        simp only [hcempty, hcont, hfail, Bool.false_eq_true, if_false]
        simpa only [List.append_assoc] using
          ih (buf ++ carry) c (by simpa only [List.append_assoc] using h)

inductive Turn (α σ : Type*) where
  | done
  | yield (chunk : List α) (next : σ)
  | again (next : σ)

def Turn.map {τ : Type*} (f : σ → τ) : Turn α σ → Turn α τ
  | .done => .done
  | .yield chunk next => .yield chunk (f next)
  | .again next => .again (f next)

inductive Drains (step : σ → Except ε (Turn α σ)) : σ → List α → Option ε → Prop
  | done (s : σ) (h : step s = .ok .done) : Drains step s [] none
  | fail (s : σ) (e : ε) (h : step s = .error e) : Drains step s [] (some e)
  | yield (s t : σ) (chunk xs : List α) (r : Option ε) (h : step s = .ok (.yield chunk t))
      (ht : Drains step t xs r) : Drains step s (chunk ++ xs) r
  | again (s t : σ) (xs : List α) (r : Option ε) (h : step s = .ok (.again t))
      (ht : Drains step t xs r) : Drains step s xs r

variable {step : σ → Except ε (Turn α σ)}

variable {s : σ}

/-- Reading a stream has one outcome. -/
theorem Drains.unique {xs ys : List α} {r r' : Option ε}
    (h : Drains step s xs r) (h' : Drains step s ys r') : xs = ys ∧ r = r' := by
  induction h generalizing ys r' with
  | done s hs => cases h' <;> simp_all
  | fail s e hs => cases h' <;> simp_all
  | yield s t chunk xs r hs ht ih =>
    cases h' with
    | yield _ t' chunk' ys r' hs' ht' =>
      rw [hs] at hs'
      obtain ⟨rfl,rfl⟩ := Turn.yield.inj (Except.ok.inj hs')
      obtain ⟨rfl,rfl⟩ := ih ht'
      exact ⟨rfl,rfl⟩
    | _ => simp_all
  | again s t xs r hs ht ih =>
    cases h' with
    | again _ t' ys r' hs' ht' =>
      rw [hs] at hs'
      obtain rfl := Turn.again.inj (Except.ok.inj hs')
      exact ih ht'
    | _ => simp_all

variable {r : Option ε} {xs : List α}

theorem Drains.of_step_eq {s t : σ}
    (h : step s = step t) (ht : Drains step t xs r) : Drains step s xs r := by
  cases ht with
  | done _ hd => exact .done _ (h.trans hd)
  | fail _ e he => exact .fail _ e (h.trans he)
  | yield _ t' chunk xs _ hy ht' => exact .yield _ _ _ _ _ (h.trans hy) ht'
  | again _ t' _ _ ha ht' => exact .again _ _ _ _ (h.trans ha) ht'

/-- A stream that follows another step by step drains alike. -/
theorem Drains.map {τ : Type*} {step' : τ → Except ε (Turn α τ)}
    (f : σ → τ) (hf : ∀ s, step' (f s) = (step s).map (Turn.map f))
    (h : Drains step s xs r) : Drains step' (f s) xs r := by
  induction h with
  | done s hs => exact .done _ (by rw [hf, hs]; rfl)
  | fail s e hs => exact .fail _ e (by rw [hf, hs]; rfl)
  | yield s t chunk xs r hs _ ih => exact .yield _ (f t) _ _ _ (by rw [hf, hs]; rfl) ih
  | again s t xs r hs _ ih => exact .again _ (f t) _ _ (by rw [hf, hs]; rfl) ih

/-- The stream yields `body` when `live` holds, and otherwise a prefix of it
followed by an error. -/
def Delivers (step : σ → Except ε (Turn α σ)) (s : σ) (body : List α) (live : Prop) : Prop :=
  (live → Drains step s body none) ∧
  (¬live → ∃ pre e, pre <+: body ∧ Drains step s pre (some e))

variable {body : List α} {live : Prop}

theorem Delivers.of_step_eq {s t : σ}
    (h : step s = step t) (ht : Delivers step t body live) :
    Delivers step s body live := by
  refine ⟨fun hl => (ht.1 hl).of_step_eq h,fun hl => ?_⟩
  obtain ⟨pre,e,hpre,hd⟩ := ht.2 hl
  exact ⟨pre,e,hpre,hd.of_step_eq h⟩

/-- The whole body comes out exactly when `live` holds. -/
theorem Delivers.iff
    (h : Delivers step s body live) : Drains step s body none ↔ live := by
  refine ⟨fun hd => ?_,h.1⟩
  by_contra hl
  obtain ⟨pre,e,-,hd'⟩ := h.2 hl
  exact absurd (hd.unique hd').2 (by simp)

def sourceStep : Source ε α → Except ε (Turn α (Source ε α))
  | [] => .ok .done
  | .error e::_ => .error e
  | .ok c::rest => if c.isEmpty then .ok .done else .ok (.yield c rest)

theorem source_drains (src : Source ε α) : Drains sourceStep src (contents src) (ending src) := by
  induction src with
  | nil => exact .done _ rfl
  | cons r src ih =>
    cases r with
    | error e => exact .fail _ e rfl
    | ok c =>
      by_cases hc : c.isEmpty
      · simp only [contents, ending, hc, if_true]
        exact .done _ (by simp [sourceStep, hc])
      · simp only [contents, ending, hc]
        exact .yield _ src c _ _ (by simp [sourceStep, hc]) ih

end Lib.Chunks
