import Openlake.ConsensusOrder

/-!
# Reading through the RPC server

A remote disk answers over the wire, which has names for five kinds of errors and
sends every other error as a text. The client reads that text as a decode error,
so errors of different kinds are counted as one, and errors of a lost connection,
which have no vote, get one.
-/

set_option autoImplicit false

namespace Openlake.RemoteReads
open Openlake.Types Consensus ConsensusVerdict

inductive WireError where
  | volumeNotFound (volume : String)
  | volumeExists (volume : String)
  | volumeNotEmpty (volume : String)
  | fileNotFound (volume path : String)
  | fileAlreadyExists (volume path : String)
  | other (msg : String)

def WireError.ofIoError : IoError → WireError
  | .volumeNotFound v => .volumeNotFound v
  | .volumeExists v => .volumeExists v
  | .volumeNotEmpty v => .volumeNotEmpty v
  | .fileNotFound v p => .fileNotFound v p
  | .fileAlreadyExists v p => .fileAlreadyExists v p
  | e => .other e.display

def WireError.toIoError : WireError → IoError
  | .volumeNotFound v => .volumeNotFound v
  | .volumeExists v => .volumeExists v
  | .volumeNotEmpty v => .volumeNotEmpty v
  | .fileNotFound v p => .fileNotFound v p
  | .fileAlreadyExists v p => .fileAlreadyExists v p
  | .other s => .decode s

inductive RpcResponse where
  | file (fi : FileInfo)
  | err (e : WireError)

def fold : Except IoError FileInfo → RpcResponse
  | .ok fi => .file fi
  | .error e => .err (.ofIoError e)

def callTyped : RpcResponse → Except IoError FileInfo
  | .file fi => .ok fi
  | .err e => .error e.toIoError

def reach (remote : Bool) (r : Except IoError FileInfo) : Except IoError FileInfo :=
  if remote then callTyped (fold r) else r

/-- The answers of the disks when those marked in the list are remote. -/
def through : List Bool → Results → Results
  | b::bs, r::rs => reach b r::through bs rs
  | _, rs => rs

def kept : ErrorTag → Bool
  | .volumeNotFound | .volumeExists | .volumeNotEmpty | .fileNotFound | .fileAlreadyExists => true
  | _ => false

def wired (e : IoError) : IoError := (WireError.ofIoError e).toIoError

theorem reach_ok (b : Bool) (fi : FileInfo) : reach b (.ok fi) = .ok fi := by
  cases b <;> rfl

theorem reach_error (b : Bool) (e : IoError) :
    reach b (.error e) = .error (if b then wired e else e) := by
  cases b <;> rfl

variable (e : IoError) (rs : Results)

theorem through_nil : through [] rs = rs := by
  cases rs <;> rfl

variable (t : ErrorTag) (bs : List Bool)

theorem length_through (rs : Results) : (through bs rs).length = rs.length := by
  induction rs generalizing bs with
  | nil => cases bs <;> rfl
  | cons r rs ih =>
    cases bs with
    | nil => rfl
    | cons b bs => rw [through, List.length_cons, ih, List.length_cons]

theorem metasOf_through (rs : Results) : metasOf (through bs rs) = metasOf rs := by
  induction rs generalizing bs with
  | nil => cases bs <;> rfl
  | cons r rs ih =>
    cases bs with
    | nil => rfl
    | cons b bs =>
      show (reach b r).toOption::metasOf (through bs rs) = r.toOption::metasOf rs
      rw [ih bs]
      cases r with
      | ok fi => rw [reach_ok]
      | error e => rw [reach_error]; rfl

/-- How many disks failed with an error that the wire does not name. -/
def unnamed (rs : Results) : ℕ :=
  (errsOf rs).reduceOption.countP (fun e => !kept (errorTag e))

theorem errorBallots_ok (fi : FileInfo) (rs : Results) :
    errorBallots (.ok fi::rs) = errorBallots rs := rfl

def ballot (e : IoError) : List ErrorTag := if livenessNoise e then [] else [errorTag e]

theorem errorBallots_error :
    errorBallots (.error e::rs) = ballot e ++ errorBallots rs := by
  cases h : livenessNoise e <;> simp [errorBallots, votingErrors, errsOf, ballot, h]

theorem ballot_wired :
    ballot (wired e) = [if kept (errorTag e) then errorTag e else .decode] := by
  cases e <;> rfl

theorem ballot_kept (h : kept (errorTag e) = true) : ballot e = [errorTag e] := by
  cases e <;> first | rfl | cases h

theorem count_ballot_le :
    (ballot e).count t ≤ if errorTag e = t then 1 else 0 := by
  rw [ballot]
  split_ifs with hnoise htag htag <;> simp [htag]

theorem unnamed_ok (fi : FileInfo) (rs : Results) : unnamed (.ok fi::rs) = unnamed rs := rfl

theorem unnamed_error :
    unnamed (.error e::rs) = (if kept (errorTag e) then 0 else 1)+unnamed rs := by
  cases h : kept (errorTag e) <;> simp [unnamed, errsOf, h, Nat.add_comm]

theorem kept_wired : kept (errorTag (wired e)) = kept (errorTag e) := by
  cases e <;> rfl

theorem through_induction (P : Results → Results → Prop) (hnil : P [] [])
    (hok : ∀ fi rs rs', P rs rs' → P (.ok fi::rs) (.ok fi::rs'))
    (hlocal : ∀ e rs rs', P rs rs' → P (.error e::rs) (.error e::rs'))
    (hremote : ∀ e rs rs', P rs rs' → P (.error e::rs) (.error (wired e)::rs'))
    (bs : List Bool) (rs : Results) : P rs (through bs rs) := by
  induction rs generalizing bs with
  | nil => cases bs <;> exact hnil
  | cons r rs ih =>
    cases bs with
    | nil =>
      have hrest := ih []
      rw [through_nil] at hrest ⊢
      cases r with
      | ok fi => exact hok fi rs rs hrest
      | error e => exact hlocal e rs rs hrest
    | cons b bs =>
      rw [through]
      cases r with
      | ok fi => rw [reach_ok]; exact hok fi rs _ (ih bs)
      | error e =>
        rw [reach_error]
        cases b
        · exact hlocal e rs _ (ih bs)
        · exact hremote e rs _ (ih bs)

theorem unnamed_through (rs : Results) : unnamed (through bs rs) = unnamed rs := by
  apply through_induction (fun rs rs' => unnamed rs' = unnamed rs)
  · rfl
  · exact fun fi rs rs' h => h
  · intro e rs rs' h
    rw [unnamed_error, unnamed_error, h]
  · intro e rs rs' h
    rw [unnamed_error, unnamed_error, kept_wired, h]

theorem count_le_unnamed (ht : kept t = false) (rs : Results) :
    (errorBallots rs).count t ≤ unnamed rs := by
  induction rs with
  | nil => exact Nat.le_refl 0
  | cons r rs ih =>
    cases r with
    | ok fi => exact ih
    | error e =>
      rw [errorBallots_error, unnamed_error, List.count_append]
      refine Nat.add_le_add ((count_ballot_le e t).trans ?_) ih
      split_ifs with htag hkept
      · rw [htag, ht] at hkept
        cases hkept
      all_goals omega

/-- A relation between the counts of a tag that every vote in common keeps, and every
error that the wire does not name. -/
theorem count_through (R : ℕ → ℕ → Prop) (hzero : R 0 0)
    (hadd : ∀ k a b, R a b → R (k+a) (k+b))
    (hlost : ∀ e a b, kept (errorTag e) = false → R a b →
      R ((ballot e).count t+a) ([ErrorTag.decode].count t+b)) (bs : List Bool) (rs : Results) :
    R ((errorBallots rs).count t) ((errorBallots (through bs rs)).count t) := by
  apply through_induction (fun rs rs' => R ((errorBallots rs).count t) ((errorBallots rs').count t))
  · exact hzero
  · exact fun fi rs rs' h => h
  · intro e rs rs' h
    rw [errorBallots_error, errorBallots_error, List.count_append, List.count_append]
    exact hadd _ _ _ h
  · intro e rs rs' h
    rw [errorBallots_error, errorBallots_error, List.count_append, List.count_append, ballot_wired]
    cases hk : kept (errorTag e) with
    | true =>
      rw [ballot_kept e hk]
      exact hadd _ _ _ h
    | false => exact hlost e _ _ hk h

theorem count_of_kept (ht : kept t = true) (bs : List Bool) (rs : Results) :
    (errorBallots (through bs rs)).count t = (errorBallots rs).count t := by
  apply count_through t (fun a b => b = a) rfl (fun k a b h => by rw [h])
  intro e a b hk h
  have hdecode : ErrorTag.decode ≠ t := by rintro rfl; cases ht
  have htag : errorTag e ≠ t := by rintro rfl; rw [ht] at hk; cases hk
  have hnone := count_ballot_le e t
  rw [if_neg htag] at hnone
  rw [h, Nat.le_zero.mp hnone, List.count_cons_of_ne hdecode, List.count_nil]

theorem count_decode_le (rs : Results) :
    (errorBallots rs).count .decode ≤ (errorBallots (through bs rs)).count .decode := by
  apply count_through .decode (· ≤ ·) (Nat.le_refl 0) (fun k a b h => Nat.add_le_add_left h k)
  intro e a b _ h
  refine Nat.add_le_add ((count_ballot_le e .decode).trans ?_) h
  rw [List.count_cons_self]
  split_ifs <;> simp

theorem count_lossy_le (ht : t ≠ .decode) (bs : List Bool) (rs : Results) :
    (errorBallots (through bs rs)).count t ≤ (errorBallots rs).count t := by
  apply count_through t (fun a b => b ≤ a) (Nat.le_refl 0) (fun k a b h => Nat.add_le_add_left h k)
  intro e a b _ h
  rw [List.count_cons_of_ne ht.symm, List.count_nil]
  omega

def remote (rs : Results) : Results := through (List.replicate rs.length true) rs

theorem remote_error :
    remote (.error e::rs) = .error (wired e)::remote rs := by
  rw [remote, List.length_cons, List.replicate_succ, through, reach_error]
  rfl

theorem remote_ok (fi : FileInfo) (rs : Results) : remote (.ok fi::rs) = .ok fi::remote rs := by
  rw [remote, List.length_cons, List.replicate_succ, through, reach_ok]
  rfl

theorem decode_of_kept {e : IoError} (hk : kept (errorTag e) = true) : errorTag e ≠ .decode := by
  intro h
  rw [h] at hk
  cases hk

theorem count_decode_remote :
    (errorBallots (remote rs)).count .decode = unnamed rs := by
  induction rs with
  | nil => rfl
  | cons r rs ih =>
    cases r with
    | ok fi => rw [remote_ok, errorBallots_ok, ih, unnamed_ok]
    | error e =>
      rw [remote_error, errorBallots_error, ballot_wired, unnamed_error, List.count_append, ih]
      congr 1
      cases hk : kept (errorTag e) with
      | true => exact List.count_cons_of_ne (decode_of_kept hk)
      | false => rfl

theorem kept_of_mem_remote (rs : Results) (h : t ∈ errorBallots (remote rs)) :
    kept t = true ∨ t = .decode := by
  induction rs with
  | nil => cases h
  | cons r rs ih =>
    cases r with
    | ok fi => exact ih (by rwa [remote_ok, errorBallots_ok] at h)
    | error e =>
      rw [remote_error, errorBallots_error, ballot_wired, List.singleton_append, List.mem_cons] at h
      rcases h with rfl | h
      · cases hk : kept (errorTag e) with
        | true => exact .inl hk
        | false => exact .inr rfl
      · exact ih h

theorem unnamed_le_count_decode :
    unnamed rs ≤ (errorBallots rs).count .decode ↔
      ∀ e, .error e ∈ rs → kept (errorTag e) = true ∨ errorTag e = .decode := by
  induction rs with
  | nil => simp [unnamed, errsOf]
  | cons r rs ih =>
    cases r with
    | ok fi =>
      rw [unnamed_ok, errorBallots_ok, ih]
      simp
    | error e =>
      have hle := count_le_unnamed .decode rfl rs
      have hcons : (∀ e', Except.error e' ∈ (.error e::rs : Results) →
          kept (errorTag e') = true ∨ errorTag e' = .decode) ↔
          (kept (errorTag e) = true ∨ errorTag e = .decode) ∧
            unnamed rs ≤ (errorBallots rs).count .decode := by
        rw [ih]
        simp
      rw [hcons, unnamed_error, errorBallots_error, List.count_append]
      have hone := count_ballot_le e .decode
      cases hk : kept (errorTag e) with
      | true =>
        rw [if_neg (decode_of_kept hk)] at hone
        simp [Nat.le_zero.mp hone]
      | false =>
        by_cases hd : errorTag e = .decode
        · have hvote : ballot e = [.decode] := by cases e <;> first | rfl | cases hd
          simp [hd, hvote]
        · rw [if_neg hd] at hone
          simp [hd]
          omega

theorem errorBallots_through
    (h : ∀ e, .error e ∈ rs → kept (errorTag e) = true ∨ errorTag e = .decode) :
    errorBallots (through bs rs) = errorBallots rs := by
  revert h
  apply through_induction (fun rs rs' =>
    (∀ e, .error e ∈ rs → kept (errorTag e) = true ∨ errorTag e = .decode) →
      errorBallots rs' = errorBallots rs)
  · exact fun _ => rfl
  · exact fun fi rs rs' ih h => ih (fun e he => h e (List.mem_cons_of_mem _ he))
  · intro e rs rs' ih h
    rw [errorBallots_error, errorBallots_error, ih (fun e he => h e (List.mem_cons_of_mem _ he))]
  · intro e rs rs' ih h
    rw [errorBallots_error, errorBallots_error, ballot_wired,
      ih (fun e he => h e (List.mem_cons_of_mem _ he))]
    rcases h e List.mem_cons_self with hk | hd
    · rw [if_pos hk, ballot_kept e hk]
    · cases e <;> first | rfl | cases hd

end Openlake.RemoteReads
