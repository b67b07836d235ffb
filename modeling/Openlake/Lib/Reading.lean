import Mathlib

/-!
# Streams that are read chunk by chunk

A stream is a state with a read function; an empty chunk is its end. A stream
yields a list of chunks when every number of reads returns the chunks in order
and empty chunks after them.
-/

set_option autoImplicit false

namespace Lib.Reading

variable {ε α σ : Type*} (rd : σ → Except ε (List α × σ))

def reads : ℕ → σ → Except ε (List (List α))
  | 0, _ => .ok []
  | k+1, s =>
    match rd s with
    | .error e => .error e
    | .ok (chunk,t) => (reads k t).map (chunk::·)

/-- The first `k` of the chunks, filled up with empty ones. -/
def padded (chunks : List (List α)) (k : ℕ) : List (List α) :=
  (chunks ++ List.replicate k []).take k

def Yields (s : σ) (chunks : List (List α)) : Prop :=
  (∀ c ∈ chunks, c ≠ []) ∧ ∀ k, reads rd k s = .ok (padded chunks k)

theorem padded_nil (k : ℕ) : padded ([] : List (List α)) (k+1) = []::padded [] k := by
  simp [padded, List.replicate_succ]

theorem padded_cons (c : List α) (cs : List (List α)) (k : ℕ) :
    padded (c::cs) (k+1) = c::padded cs k := by
  simp only [padded, List.cons_append, List.take_succ_cons, List.replicate_succ']
  rw [← List.append_assoc, List.take_append_of_le_length (by simp)]

variable {rd}

theorem reads_succ {s t : σ} {chunk : List α} (h : rd s = .ok (chunk,t)) (k : ℕ) :
    reads rd (k+1) s = (reads rd k t).map (chunk::·) := by
  rw [reads, h]

variable {cs : List (List α)} {s : σ} {c : List α}

theorem reads_succ_ok {k : ℕ}
    (h : reads rd (k+1) s = .ok (c::cs)) : ∃ t, rd s = .ok (c,t) ∧ reads rd k t = .ok cs := by
  rw [reads] at h
  cases hs : rd s with
  | error e =>
    rw [hs] at h
    cases h
  | ok p =>
    obtain ⟨chunk,t⟩ := p
    rw [hs] at h
    dsimp only at h
    cases hr : reads rd k t with
    | error e =>
      rw [hr] at h
      cases h
    | ok cs' =>
      rw [hr] at h
      cases h
      exact ⟨t,rfl,hr⟩

/-- The first read of a stream that yields `chunks`, when `first` is what it returns. -/
theorem reads_tail {chunks rest : List (List α)} {first : List α}
    (hpad : ∀ k, padded chunks (k+1) = first::padded rest k)
    (h : ∀ k, reads rd k s = .ok (padded chunks k)) :
    ∃ t, rd s = .ok (first,t) ∧ ∀ k, reads rd k t = .ok (padded rest k) := by
  obtain ⟨t,hs,-⟩ := reads_succ_ok ((h 1).trans (by rw [hpad]))
  refine ⟨t,hs,fun k => ?_⟩
  obtain ⟨t',hs',ht⟩ := reads_succ_ok ((h (k+1)).trans (by rw [hpad]))
  rw [hs] at hs'
  cases hs'
  exact ht

theorem Yields.nil_read (h : Yields rd s []) : ∃ t, rd s = .ok ([],t) ∧ Yields rd t [] := by
  obtain ⟨t,hs,ht⟩ := reads_tail padded_nil h.2
  exact ⟨t,hs,h.1,ht⟩

theorem Yields.cons_read (h : Yields rd s (c::cs)) :
    c ≠ [] ∧ ∃ t, rd s = .ok (c,t) ∧ Yields rd t cs := by
  obtain ⟨t,hs,ht⟩ := reads_tail (padded_cons c cs) h.2
  exact ⟨h.1 c List.mem_cons_self,t,hs,fun x hx => h.1 x (List.mem_cons_of_mem _ hx),ht⟩

/-- A stream is at its end if an invariant of its empty reads holds. -/
theorem Yields.nil_of_invariant (inv : σ → Prop)
    (hread : ∀ s, inv s → ∃ t, rd s = .ok ([],t) ∧ inv t) (h : inv s) :
    Yields rd s [] := by
  refine ⟨by simp,fun k => ?_⟩
  induction k generalizing s with
  | zero => rfl
  | succ k ih =>
    obtain ⟨t,hs,ht⟩ := hread s h
    rw [reads_succ hs, ih ht, padded_nil]
    rfl

theorem Yields.cons {s t : σ} (hne : c ≠ [])
    (hs : rd s = .ok (c,t)) (h : Yields rd t cs) : Yields rd s (c::cs) := by
  refine ⟨List.forall_mem_cons.mpr ⟨hne,h.1⟩,fun k => ?_⟩
  cases k with
  | zero => rfl
  | succ k =>
    rw [reads_succ hs, h.2, padded_cons]
    rfl

/-- Two states that are read alike yield the same. -/
theorem Yields.of_read_eq {s t : σ} (h : rd s = rd t) (ht : Yields rd t cs) :
    Yields rd s cs := by
  refine ⟨ht.1,fun k => ?_⟩
  rw [← ht.2 k]
  cases k with
  | zero => rfl
  | succ k => rw [reads, reads, h]

end Lib.Reading
