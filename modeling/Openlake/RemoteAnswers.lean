import Openlake.RemoteReads

/-!
# Answers of a read with remote disks

The records of a read are the same whichever disks are remote, so only the
error vote can change its answer. `Preserved` says on the vote counts when it
does not.
-/

set_option autoImplicit false

namespace Openlake.RemoteAnswers
open Openlake.Types Consensus ConsensusVerdict ConsensusOrder RemoteReads Lib.Tally

/-- Some error that the wire names has more votes than all the others that it
does not name. -/
def Outvoted (rs : Results) : Prop :=
  ∃ t, kept t = true ∧ unnamed rs < (errorBallots rs).count t

theorem Outvoted.leads_iff {rs : Results} (h : Outvoted rs) (s : ErrorTag) :
    Leads (errorBallots rs) s ↔
      kept s = true ∧ ∀ l, kept l = true → (errorBallots rs).count l ≤ (errorBallots rs).count s := by
  obtain ⟨t,ht,hlt⟩ := h
  constructor
  · intro hs
    have hle := hs.2 t
    refine ⟨?_,fun l _ => hs.2 l⟩
    cases hk : kept s with
    | true => rfl
    | false =>
      have := count_le_unnamed s hk rs
      omega
  · rintro ⟨hs,hmax⟩
    have hle := hmax t ht
    refine ⟨List.count_pos_iff.mp (by omega),fun l => ?_⟩
    cases hk : kept l with
    | true => exact hmax l hk
    | false =>
      have := count_le_unnamed l hk rs
      omega

theorem gated_iff_named (rs : Results) (h : unnamed rs < half rs.length ∨ Outvoted rs) :
    Gated rs ↔ ∃ s, kept s = true ∧ half rs.length ≤ (errorBallots rs).count s := by
  constructor
  · rintro ⟨s,hs⟩
    cases hk : kept s with
    | true => exact ⟨s,hk,hs⟩
    | false =>
      have hle := count_le_unnamed s hk rs
      rcases h with h | ⟨t,ht,hlt⟩
      · omega
      · exact ⟨t,ht,by omega⟩
  · exact fun ⟨s,_,hs⟩ => ⟨s,hs⟩

variable {H : Type}

def answer : Except StorageError (ℕ × FileInfo) → Except ErrorClass FileInfo
  | .ok w => .ok w.2
  | .error e => .error (errorClass e)

variable [DecidableEq H] (blake3 : Bytes → H) (bucket key : String) (rs : Results)

/-- The answers of a read under the iteration orders of its hash maps. -/
def Possible (blake3 : Bytes → H) (bucket key : String) (rs : Results) :
    Set (Except ErrorClass FileInfo) :=
  {a | ∃ o : HashOrders H, answer (readWithConsensus o blake3 bucket key rs) = a}

def PlacementFree (blake3 : Bytes → H) (bucket key : String) (rs : Results) : Prop :=
  ∀ bs, Possible blake3 bucket key (through bs rs) = Possible blake3 bucket key rs

/-- The errors which the wire does not name are all decode errors, or too few
to be returned, or fewer than the errors of a named kind, or the decode errors
among them already win the vote. -/
def Preserved (rs : Results) : Prop :=
  (∀ e, .error e ∈ rs → kept (errorTag e) = true ∨ errorTag e = .decode) ∨
    unnamed rs < half rs.length ∨
    Outvoted rs ∨
    (half rs.length ≤ (errorBallots rs).count .decode ∧
      ∀ t, t ≠ .decode → (errorBallots rs).count t < (errorBallots rs).count .decode)

theorem possible_of_not_gated (rs rs' : Results)
    (hm : metasOf rs' = metasOf rs) (hl : rs'.length = rs.length) (hg : ¬Gated rs)
    (hg' : ¬Gated rs') : Possible blake3 bucket key rs' = Possible blake3 bucket key rs := by
  ext a
  constructor
  · rintro ⟨o,rfl⟩
    refine ⟨o,?_⟩
    rw [readWithConsensus_not_gated _ _ _ _ _ hg, readWithConsensus_not_gated _ _ _ _ _ hg', hm, hl]
  · rintro ⟨o,rfl⟩
    refine ⟨o,?_⟩
    rw [readWithConsensus_not_gated _ _ _ _ _ hg, readWithConsensus_not_gated _ _ _ _ _ hg', hm, hl]

theorem mem_possible_of_gated (hg : Gated rs) (a : Except ErrorClass FileInfo) :
    a ∈ Possible blake3 bucket key rs ↔
      ∃ t, Leads (errorBallots rs) t ∧ a = .error (gateClass t) := by
  constructor
  · rintro ⟨o,rfl⟩
    have hv := readWithConsensus_verdict o blake3 bucket key rs
    generalize readWithConsensus o blake3 bucket key rs = x at hv
    cases hv with
    | gate e he ht hc => exact ⟨_,ht,by rw [answer, errorClass_mapObjectMissing]⟩
    | _ => contradiction
  · rintro ⟨t,ht,rfl⟩
    obtain ⟨o,ho⟩ := gate_attained blake3 bucket key rs hg t ht
    refine ⟨o,?_⟩
    cases hr : readWithConsensus o blake3 bucket key rs with
    | ok w => rw [hr] at ho; cases ho
    | error e => rw [hr] at ho; exact congrArg Except.error (Except.error.inj ho)

theorem not_gateClass_of_not_gated (hg : ¬Gated rs) (t : ErrorTag) :
    .error (gateClass t) ∉ Possible blake3 bucket key rs := by
  rintro ⟨o,ho⟩
  have hv := readWithConsensus_verdict o blake3 bucket key rs
  generalize readWithConsensus o blake3 bucket key rs = x at hv ho
  cases hv with
  | gate e he ht hc => exact hg ⟨_,hc⟩
  | accept => cases ho
  | _ => cases t <;> cases ho

theorem mem_of_gateClass (t : ErrorTag) : .error (gateClass t) ∈ Possible blake3 bucket key rs ↔
      Gated rs ∧ Leads (errorBallots rs) t := by
  by_cases hg : Gated rs
  · rw [mem_possible_of_gated _ _ _ _ hg]
    constructor
    · rintro ⟨s,hs,h⟩
      rw [gateClass_injective (Except.error.inj h)]
      exact ⟨hg,hs⟩
    · exact fun h => ⟨t,h.2,rfl⟩
  · exact ⟨fun h => absurd h (not_gateClass_of_not_gated _ _ _ _ hg t),fun h => absurd h.1 hg⟩

theorem possible_eq (rs rs' : Results)
    (hm : metasOf rs' = metasOf rs) (hl : rs'.length = rs.length) (hg : Gated rs' ↔ Gated rs)
    (hlead : Gated rs → ∀ t, Leads (errorBallots rs') t ↔ Leads (errorBallots rs) t) :
    Possible blake3 bucket key rs' = Possible blake3 bucket key rs := by
  by_cases h : Gated rs
  · ext a
    rw [mem_possible_of_gated _ _ _ _ h, mem_possible_of_gated _ _ _ _ (hg.mpr h)]
    simp only [hlead h]
  · exact possible_of_not_gated blake3 bucket key rs rs' hm hl h (fun h' => h (hg.mp h'))

theorem outvoted_through (bs : List Bool) (rs : Results) :
    Outvoted (through bs rs) ↔ Outvoted rs := by
  rw [Outvoted, Outvoted, unnamed_through]
  constructor
  · exact fun ⟨t,ht,h⟩ => ⟨t,ht,by rwa [count_of_kept t ht] at h⟩
  · exact fun ⟨t,ht,h⟩ => ⟨t,ht,by rwa [count_of_kept t ht]⟩

theorem possible_of_named (h : unnamed rs < half rs.length ∨ Outvoted rs)
    : PlacementFree blake3 bucket key rs := by
  intro bs
  have h' : unnamed (through bs rs) < half (through bs rs).length ∨ Outvoted (through bs rs) := by
    rwa [unnamed_through, length_through, outvoted_through]
  have hgated : Gated (through bs rs) ↔ Gated rs := by
    rw [gated_iff_named _ h, gated_iff_named _ h', length_through]
    constructor
    · exact fun ⟨s,hs,hc⟩ => ⟨s,hs,by rwa [count_of_kept s hs] at hc⟩
    · exact fun ⟨s,hs,hc⟩ => ⟨s,hs,by rwa [count_of_kept s hs]⟩
  apply possible_eq blake3 bucket key _ _ (metasOf_through bs rs) (length_through bs rs) hgated
  intro hg s
  have hout : Outvoted rs := by
    rcases h with h | h
    · obtain ⟨t,ht,hc⟩ := (gated_iff_named _ (.inl h)).mp hg
      exact ⟨t,ht,by omega⟩
    · exact h
  rw [hout.leads_iff, ((outvoted_through bs rs).mpr hout).leads_iff]
  apply and_congr_right
  intro hs
  apply forall₂_congr
  intro l hl
  rw [count_of_kept l hl, count_of_kept s hs]

theorem possible_of_decode (hh : half rs.length ≤ (errorBallots rs).count .decode)
    (hd : ∀ t, t ≠ .decode → (errorBallots rs).count t < (errorBallots rs).count .decode) :
    PlacementFree blake3 bucket key rs := by
  intro bs
  have hle := count_decode_le bs rs
  have hlead : ∀ rs' : Results,
      (∀ t, t ≠ .decode → (errorBallots rs').count t < (errorBallots rs').count .decode) →
      ∀ t, Leads (errorBallots rs') t ↔ t = .decode := by
    intro rs' hd' t
    constructor
    · intro ht
      by_contra hne
      have h1 := hd' t hne
      have h2 := ht.2 .decode
      omega
    · rintro rfl
      have hpos := hd' .io (by decide)
      refine ⟨List.count_pos_iff.mp (by omega),fun l => ?_⟩
      by_cases hl : l = .decode
      · rw [hl]
      · exact (hd' l hl).le
  have hd' : ∀ t, t ≠ .decode →
      (errorBallots (through bs rs)).count t < (errorBallots (through bs rs)).count .decode := by
    intro t ht
    have h1 := hd t ht
    have h2 := count_lossy_le t ht bs rs
    omega
  have hg : Gated rs := ⟨.decode,hh⟩
  have hg' : Gated (through bs rs) := ⟨.decode,by rw [length_through]; omega⟩
  apply possible_eq blake3 bucket key _ _ (metasOf_through bs rs) (length_through bs rs)
    (iff_of_true hg' hg)
  intro _ t
  rw [hlead rs hd, hlead _ hd']

/-- If the answer does not depend on the placement, then the errors that the
wire does not name are of a kind or a number that does no harm. -/
theorem preserved_of_placementFree (h : PlacementFree blake3 bucket key rs) : Preserved rs := by
  by_contra hnot
  simp only [Preserved, not_or] at hnot
  obtain ⟨hall,hhalf,hout,hdecode⟩ := hnot
  rw [← unnamed_le_count_decode] at hall
  have hremote : Possible blake3 bucket key (remote rs) = Possible blake3 bucket key rs := h _
  have hkept : ∀ t, kept t = true → (errorBallots rs).count t ≤ unnamed rs := by
    intro t ht
    by_contra hlt
    exact hout ⟨t,ht,by omega⟩
  have hcount := count_decode_remote rs
  have hlen : (remote rs).length = rs.length := length_through _ _
  have hgated : Gated (remote rs) := ⟨.decode,by rw [hlen]; omega⟩
  have hpos : 0 < half rs.length := Nat.lt_of_lt_of_le Nat.zero_lt_one (Nat.le_max_right _ _)
  have hmem : ErrorTag.decode ∈ errorBallots (remote rs) := List.count_pos_iff.mp (by omega)
  -- when all the disks are remote, a decode error is returned
  have hlead : Leads (errorBallots (remote rs)) .decode := by
    refine ⟨hmem,fun l => ?_⟩
    by_cases hl : l ∈ errorBallots (remote rs)
    · rcases kept_of_mem_remote l rs hl with hk | rfl
      · have := hkept l hk
        rw [remote, count_of_kept l hk, ← remote]
        omega
      · exact Nat.le_refl _
    · rw [List.count_eq_zero_of_not_mem hl]
      exact Nat.zero_le _
  have hdirect : Gated rs ∧ Leads (errorBallots rs) .decode := by
    rw [← mem_of_gateClass blake3 bucket key, ← hremote, mem_of_gateClass]
    exact ⟨hgated,hlead⟩
  obtain ⟨⟨s,hs⟩,hmax⟩ := hdirect
  have hsle := hmax.2 s
  obtain ⟨t,hne,hle⟩ : ∃ t, t ≠ .decode ∧
      (errorBallots rs).count .decode ≤ (errorBallots rs).count t := by
    by_contra hno
    push Not at hno
    exact hdecode ⟨by omega,hno⟩
  -- a second leader of the direct read has to lead the remote one
  have ht : Leads (errorBallots rs) t :=
    ⟨List.count_pos_iff.mp (by omega),fun l => (hmax.2 l).trans hle⟩
  have ht' : Leads (errorBallots (remote rs)) t := by
    have hp := (mem_of_gateClass blake3 bucket key rs t).mpr ⟨⟨s,hs⟩,ht⟩
    rw [← hremote, mem_of_gateClass] at hp
    exact hp.2
  rcases kept_of_mem_remote t rs ht'.1 with hk | hd
  · have h1 := ht'.2 .decode
    have h2 := hmax.2 t
    rw [remote, count_of_kept t hk, ← remote] at h1
    omega
  · exact hne hd

/-- A read returns the same record or the same class of error, whichever disks
are remote, exactly when the errors without a name on the wire cannot change
the error vote. -/
theorem placementFree_iff (blake3 : Bytes → H) (bucket key : String) (rs : Results) :
    PlacementFree blake3 bucket key rs ↔ Preserved rs := by
  constructor
  · exact preserved_of_placementFree blake3 bucket key rs
  · rintro (hall | hhalf | hout | ⟨hh,hd⟩)
    · intro bs
      have hb := errorBallots_through rs bs hall
      apply possible_eq blake3 bucket key _ _ (metasOf_through bs rs) (length_through bs rs)
      · rw [Gated, Gated, hb, length_through]
      · intro _ t
        rw [hb]
    · exact possible_of_named blake3 bucket key rs (.inl hhalf)
    · exact possible_of_named blake3 bucket key rs (.inr hout)
    · exact possible_of_decode blake3 bucket key rs hh hd

/-- Four disks that hold the object but not the version asked for. -/
def versionGone : Results :=
  List.replicate 4 (.error (.fileVersionNotFound "photos" "a.bin" "v1"))

def readOrders : HashOrders Bytes := ⟨.insertion _,.insertion _,.insertion _,.insertion _⟩

/-- Read directly, the version is not found; read over the wire, the answer is
a decode error. -/
theorem versionGone_not_placementFree :
    answer (readWithConsensus readOrders splitDigest "photos" "a.bin" versionGone) =
        .error .versionNotFound ∧
      answer (readWithConsensus readOrders splitDigest "photos" "a.bin" (remote versionGone)) =
        .error (.io .decode) ∧
      ¬PlacementFree splitDigest "photos" "a.bin" versionGone := by
  refine ⟨by decide +kernel,by decide +kernel,fun hfree => ?_⟩
  rcases preserved_of_placementFree _ _ _ _ hfree with h | h | ⟨t,ht,h⟩ | h
  · exact absurd (h _ List.mem_cons_self) (by decide)
  · exact absurd h (by decide)
  · revert h ht
    cases t <;> decide
  · exact absurd h.1 (by decide)

end Openlake.RemoteAnswers
