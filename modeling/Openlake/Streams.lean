import Openlake.Lib.Chunks
import Openlake.Lib.Reading
import Openlake.Types

/-!
# Byte streams

An upload or a shard stream is a source: the chunks and the error its reads
return. A rope yields the frames of an inline payload; an empty frame reads as the
end. A ranged stream skips a number of bytes of an inner stream and then takes a
number of bytes.
-/

set_option autoImplicit false

namespace Openlake.Streams
open Openlake.Types Lib.Chunks

abbrev ByteSource := Source IoError UInt8

def ropeByteStream (frames : List Bytes) : ByteSource := frames.map .ok

theorem contents_rope (frames : List Bytes) (h : ∀ f ∈ frames, f ≠ []) :
    contents (ropeByteStream frames) = frames.flatten := by
  induction frames with
  | nil => rfl
  | cons f frames ih =>
    have hf : f.isEmpty = false := by simpa using h f List.mem_cons_self
    have ih' := ih fun g hg => h g (List.mem_cons_of_mem _ hg)
    simp only [ropeByteStream, List.map_cons, contents, hf, List.flatten_cons] at ih' ⊢
    rw [ih']
    rfl

theorem ending_rope (frames : List Bytes) : ending (ropeByteStream frames) = none := by
  induction frames with
  | nil => rfl
  | cons f frames ih =>
    simp only [ropeByteStream, List.map_cons, ending] at ih ⊢
    split_ifs
    · rfl
    · exact ih

structure SkipTakeStream (σ : Type) where
  inner : σ
  toSkip : ℕ
  remaining : ℕ

section Steps

variable {σ : Type} (read : σ → Except IoError (Turn UInt8 σ))

def SkipTakeStream.step (s : SkipTakeStream σ) :
    Except IoError (Turn UInt8 (SkipTakeStream σ)) :=
  if s.remaining = 0 then .ok .done
  else
    match read s.inner with
    | .error e => .error e
    | .ok .done => .ok .done
    | .ok (.again inner) => .ok (.again { s with inner := inner })
    | .ok (.yield chunk inner) =>
      if chunk.length ≤ s.toSkip then
        .ok (.again { s with inner := inner, toSkip := s.toSkip-chunk.length })
      else
        let kept := chunk.drop s.toSkip
        let take := min s.remaining kept.length
        .ok (.yield (kept.take take)
          { inner := inner, toSkip := 0, remaining := s.remaining-take })

theorem skipTake_done (s : SkipTakeStream σ) (h : s.remaining = 0) :
    Drains (SkipTakeStream.step read) s [] none :=
  .done _ (by rw [SkipTakeStream.step, if_pos h])

/-- A ranged stream over an inner stream that reads to its end yields the
window of the inner bytes. -/
theorem skipTake_drains (inner : σ) (xs : Bytes) (h : Drains read inner xs none)
    (skip take : ℕ) :
    Drains (SkipTakeStream.step read) ⟨inner,skip,take⟩ ((xs.drop skip).take take) none := by
  generalize hr : (none : Option IoError) = r at h
  induction h generalizing skip take with
  | done s hs =>
    rw [List.drop_nil, List.take_nil]
    by_cases ht : take = 0
    · exact skipTake_done read _ ht
    · exact .done _ (by simp [SkipTakeStream.step, ht, hs])
  | fail s e hs => cases hr
  | again s t xs r hs _ ih =>
    subst hr
    by_cases ht : take = 0
    · subst ht
      rw [List.take_zero]
      exact skipTake_done read ⟨s,skip,0⟩ rfl
    · exact .again _ _ _ _ (by simp [SkipTakeStream.step, ht, hs]) (ih skip take rfl)
  | yield s t chunk xs r hs _ ih =>
    subst hr
    by_cases ht : take = 0
    · subst ht
      rw [List.take_zero]
      exact skipTake_done read ⟨s,skip,0⟩ rfl
    · by_cases hskip : chunk.length ≤ skip
      · rw [List.drop_append, List.drop_of_length_le hskip, List.nil_append]
        exact .again _ _ _ _ (by simp [SkipTakeStream.step, ht, hs, hskip])
          (ih (skip-chunk.length) take rfl)
      · have hsplit : ((chunk ++ xs).drop skip).take take =
            (chunk.drop skip).take (min take (chunk.drop skip).length) ++
              (xs.drop 0).take (take-min take (chunk.drop skip).length) := by
          rw [List.drop_append, Nat.sub_eq_zero_of_le (by omega), List.take_append]
          congr 1
          · rcases Nat.le_total take (chunk.drop skip).length with hle | hle
            · rw [Nat.min_eq_left hle]
            · rw [Nat.min_eq_right hle, List.take_of_length_le hle, List.take_length]
          · rcases Nat.le_total take (chunk.drop skip).length with hle | hle
            · rw [Nat.min_eq_left hle, Nat.sub_self, Nat.sub_eq_zero_of_le hle]
            · rw [Nat.min_eq_right hle]
        rw [hsplit]
        exact .yield _ _ _ _ _ (by simp [SkipTakeStream.step, ht, hs, hskip])
          (ih 0 (take-min take (chunk.drop skip).length) rfl)

end Steps

open Lib.Reading

def RopeByteStream.read : List Bytes → Except IoError (Bytes × List Bytes)
  | [] => .ok ([],[])
  | frame::frames => .ok (frame,frames)

theorem rope_yields (frames : List Bytes) (h : ∀ f ∈ frames, f ≠ []) :
    Yields RopeByteStream.read frames frames := by
  induction frames with
  | nil =>
    refine Yields.nil_of_invariant (fun s => s = []) (fun s hs => ⟨[],?_,rfl⟩) rfl
    rw [hs]
    rfl
  | cons frame frames ih =>
    exact .cons (h frame List.mem_cons_self) rfl (ih fun f hf => h f (List.mem_cons_of_mem _ hf))

variable {σ : Type} (rd : σ → Except IoError (Bytes × σ))

namespace SkipTakeStream

def new (inner : σ) (skip take : ℕ) : SkipTakeStream σ := ⟨inner,skip,take⟩

def read (s : SkipTakeStream σ) : Except IoError (Bytes × SkipTakeStream σ) :=
  if s.remaining = 0 then .ok ([],s)
  else
    match rd s.inner with
    | .error e => .error e
    | .ok (chunk,inner) =>
      if chunk.isEmpty then .ok ([],{ s with inner := inner })
      else if chunk.length ≤ s.toSkip then
        read { s with inner := inner, toSkip := s.toSkip-chunk.length }
      else
        let kept := chunk.drop s.toSkip
        let take := min s.remaining kept.length
        .ok (kept.take take,{ inner := inner, toSkip := 0, remaining := s.remaining-take })
termination_by s.toSkip
decreasing_by
  rename_i hempty hskip
  have := List.length_pos_iff.mpr (by simpa using hempty : chunk ≠ [])
  omega

def asTurn (s : σ) : Except IoError (Turn UInt8 σ) :=
  match rd s with
  | .error e => .error e
  | .ok (chunk,t) => .ok (if chunk.isEmpty then .done else .yield chunk t)

variable {rd}

variable {s : SkipTakeStream σ}

theorem read_zero (h : s.remaining = 0) : read rd s = .ok ([],s) := by
  rw [read, if_pos h]

variable {inner : σ}

theorem read_end (h : s.remaining ≠ 0)
    (hr : rd s.inner = .ok ([],inner)) : read rd s = .ok ([],{ s with inner := inner }) := by
  rw [read, if_neg h, hr]
  rfl

theorem read_skip {chunk : Bytes} (h : s.remaining ≠ 0)
    (hr : rd s.inner = .ok (chunk,inner)) (hne : chunk ≠ []) (hskip : chunk.length ≤ s.toSkip) :
    read rd s = read rd { s with inner := inner, toSkip := s.toSkip-chunk.length } := by
  rw [read, if_neg h, hr]
  dsimp only
  rw [if_neg (by simpa using hne), if_pos hskip]

theorem read_window {chunk : Bytes} (h : s.remaining ≠ 0)
    (hr : rd s.inner = .ok (chunk,inner)) (hskip : s.toSkip < chunk.length) :
    read rd s = .ok ((chunk.drop s.toSkip).take s.remaining,
      ⟨inner,0,s.remaining-(chunk.drop s.toSkip).length⟩) := by
  have hne : ¬chunk.isEmpty := by
    rw [List.isEmpty_iff_length_eq_zero]
    omega
  rw [read, if_neg h, hr]
  dsimp only
  rw [if_neg hne, if_neg (by omega)]
  rcases Nat.le_total s.remaining (chunk.drop s.toSkip).length with hle | hle
  · rw [Nat.min_eq_left hle, Nat.sub_self, Nat.sub_eq_zero_of_le hle]
  · rw [Nat.min_eq_right hle, List.take_length, List.take_of_length_le hle]

/-- A read repeats the step of the ranged stream until a step does not go round again. -/
theorem read_step (s : SkipTakeStream σ) :
    match step (asTurn rd) s with
    | .error e => read rd s = .error e
    | .ok .done => ∃ t, read rd s = .ok ([],t)
    | .ok (.again t) => read rd s = read rd t
    | .ok (.yield chunk t) => read rd s = .ok (chunk,t) := by
  rw [step]
  by_cases hrem : s.remaining = 0
  · rw [if_pos hrem]
    exact ⟨s,read_zero hrem⟩
  rw [if_neg hrem, asTurn]
  cases hr : rd s.inner with
  | error e =>
    rw [read, if_neg hrem, hr]
  | ok p =>
    obtain ⟨chunk,inner⟩ := p
    by_cases hempty : chunk.isEmpty
    · obtain rfl := List.isEmpty_iff.mp hempty
      exact ⟨_,read_end hrem hr⟩
    dsimp only
    rw [if_neg hempty]
    dsimp only
    by_cases hskip : chunk.length ≤ s.toSkip
    · rw [if_pos hskip]
      exact read_skip hrem hr (by simpa using hempty) hskip
    · rw [if_neg hskip, read, if_neg hrem, hr]
      dsimp only
      rw [if_neg hempty, if_neg hskip]

theorem yields_nil_of_remaining (h : s.remaining = 0) :
    Yields (read rd) s [] :=
  Yields.nil_of_invariant (fun s => s.remaining = 0) (fun s hs => ⟨s,read_zero hs,hs⟩) h

theorem yields_nil_of_inner (h : Yields rd s.inner []) :
    Yields (read rd) s [] := by
  refine Yields.nil_of_invariant (fun s => Yields rd s.inner []) (fun s hs => ?_) h
  by_cases hrem : s.remaining = 0
  · exact ⟨s,read_zero hrem,hs⟩
  · obtain ⟨inner,hr,hinner⟩ := hs.nil_read
    exact ⟨_,read_end hrem hr,hinner⟩

/-- Over an inner stream that yields `chunks` and ends, the window of their bytes is yielded
in chunks that are not empty, and then the stream is at its end for good. -/
theorem skipTake_yields (inner : σ) (chunks : List Bytes) (skip take : ℕ)
    (h : Yields rd inner chunks) :
    ∃ out, out.flatten = (chunks.flatten.drop skip).take take ∧
      Yields (read rd) (new inner skip take) out := by
  induction chunks generalizing inner skip take with
  | nil => exact ⟨[],by simp,yields_nil_of_inner h⟩
  | cons chunk chunks ih =>
    obtain ⟨hne,inner',hr,hinner⟩ := h.cons_read
    by_cases ht : take = 0
    · exact ⟨[],by simp [ht],yields_nil_of_remaining ht⟩
    by_cases hskip : chunk.length ≤ skip
    · obtain ⟨out,hout,hy⟩ := ih inner' (skip-chunk.length) take hinner
      refine ⟨out,?_,hy.of_read_eq (read_skip ht hr hne hskip)⟩
      rw [hout, List.flatten_cons, List.drop_append, List.drop_of_length_le hskip, List.nil_append]
    · rw [not_le] at hskip
      obtain ⟨out,hout,hy⟩ := ih inner' 0 (take-(chunk.drop skip).length) hinner
      refine ⟨(chunk.drop skip).take take::out,?_,
        .cons ?_ (read_window ht hr hskip) hy⟩
      · rw [List.flatten_cons, hout, List.flatten_cons, List.drop_append, List.take_append,
          Nat.sub_eq_zero_of_le hskip.le]
      · rw [ne_eq, ← List.length_eq_zero_iff, List.length_take, List.length_drop]
        omega

theorem skipTake_rope :
    Yields RopeByteStream.read [[1,2],[3,4,5]] [[1,2],[3,4,5]] ∧
      ∃ out, out.flatten = [2,3,4] ∧
        Yields (read RopeByteStream.read) (new [[1,2],[3,4,5]] 1 3) out :=
  ⟨rope_yields _ (by decide),skipTake_yields [[1,2],[3,4,5]] _ 1 3 (rope_yields _ (by decide))⟩

end SkipTakeStream

end Openlake.Streams
