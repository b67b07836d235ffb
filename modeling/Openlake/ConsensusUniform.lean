import Openlake.ConsensusVerdict

/-!
# Votes on records that agree

When every record cast the same ballots, the three record votes only count
them. A record is returned exactly when the error gate stays open and the
records reach the read quorum of their parity, and it is that of the first
disk that holds one, whatever the iteration orders.
-/

set_option autoImplicit false

namespace Openlake.ConsensusUniform
open Openlake.Types Consensus ConsensusVerdict Lib.Tally

variable {H : Type}

structure Uniform (blake3 : Bytes → H) (results : Results) (p : UInt8) (e : String) (h : H) :
    Prop where
  etag_ne : e ≠ ""
  valid : ∀ r, .ok r ∈ results → erasureIsValid r.erasure
  parity : ∀ r, .ok r ∈ results → parityVote results.length r = p
  etag : ∀ r, .ok r ∈ results → etagOf r = some e
  contract : ∀ r, .ok r ∈ results → decodeContractHash blake3 r = h

def served (results : Results) : Option (ℕ × FileInfo) :=
  results.zipIdx.findSome? (fun r => r.1.toOption.map (fun fi => (r.2,fi)))

variable (results : Results)

theorem mem_records (r : FileInfo) :
    r ∈ records results ↔ .ok r ∈ results := by
  rw [records, metasOf, List.reduceOption_mem_iff, List.mem_map]
  constructor
  · rintro ⟨x,hx,ho⟩
    cases x with
    | error e => cases ho
    | ok a => exact Option.some.inj ho ▸ hx
  · exact fun h => ⟨_,h,rfl⟩

theorem served_mem (i : ℕ) (fi : FileInfo)
    (h : served results = some (i,fi)) : results[i]? = some (.ok fi) := by
  obtain ⟨⟨x,j⟩,hx,hr⟩ := List.exists_of_findSome?_eq_some h
  cases x with
  | error err => cases hr
  | ok r =>
    cases hr
    exact List.mem_zipIdx_iff_getElem?.mp hx

theorem served_isSome :
    (served results).isSome ↔ (records results).length ≠ 0 := by
  rw [served, List.findSome?_isSome_iff, ← Nat.pos_iff_ne_zero, List.length_pos_iff_exists_mem]
  constructor
  · rintro ⟨⟨x,i⟩,hx,hr⟩
    cases x with
    | error err => cases hr
    | ok r => exact ⟨r,(mem_records results r).mpr (List.fst_mem_of_mem_zipIdx hx)⟩
  · rintro ⟨r,hr⟩
    obtain ⟨i,hi⟩ := List.mem_iff_getElem?.mp ((mem_records results r).mp hr)
    exact ⟨(.ok r,i),List.mem_zipIdx_iff_getElem?.mpr hi,rfl⟩

theorem served_eq_some (i : ℕ) (fi : FileInfo) :
    served results = some (i,fi) ↔
      results[i]? = some (.ok fi) ∧ ∀ j < i, ∀ r, results[j]? ≠ some (.ok r) := by
  suffices h : ∀ k i, (results.zipIdx k).findSome?
      (fun r => r.1.toOption.map (fun fi => (r.2,fi))) = some (k+i,fi) ↔
      results[i]? = some (.ok fi) ∧ ∀ j < i, ∀ r, results[j]? ≠ some (.ok r) by
    simpa [served] using h 0 i
  induction results with
  | nil => simp
  | cons x results ih =>
    intro k i
    rw [List.zipIdx_cons, List.findSome?_cons]
    cases x with
    | ok r =>
      cases i with
      | zero => simp [Except.toOption]
      | succ i =>
        refine iff_of_false (by simp [Except.toOption]) (fun h => ?_)
        exact h.2 0 (Nat.succ_pos i) r rfl
    | error e =>
      cases i with
      | zero =>
        refine iff_of_false (fun h => ?_) (by simp)
        obtain ⟨⟨y,m⟩,hy,hm⟩ := List.exists_of_findSome?_eq_some h
        have hle := List.le_snd_of_mem_zipIdx hy
        cases y with
        | error e' => cases hm
        | ok r =>
          obtain rfl : m = k := by simpa using congrArg Prod.fst (Option.some.inj hm)
          omega
      | succ i =>
        have hnext := ih (k+1) i
        rw [show k+1+i = k+(i+1) by omega] at hnext
        rw [Nat.forall_lt_succ_left]
        simpa [Except.toOption] using hnext

theorem errorBallots_uniform (t : ErrorTag)
    (h : ∀ e, .error e ∈ results → errorTag e = t ∧ livenessNoise e = false) :
    errorBallots results = List.replicate (results.length-(records results).length) t := by
  induction results with
  | nil => rfl
  | cons x results ih =>
    have ih := ih (fun e he => h e (List.mem_cons_of_mem _ he))
    have hle := length_records_le results
    cases x with
    | ok r => simpa [errorBallots, votingErrors, errsOf, records, metasOf, Except.toOption] using ih
    | error e =>
      obtain ⟨htag,hnoise⟩ := h e List.mem_cons_self
      have hrec : records (.error e::results) = records results := rfl
      have hcons : errorBallots (.error e::results) = errorTag e::errorBallots results := by
        simp [errorBallots, votingErrors, errsOf, hnoise]
      rw [hcons, ih, htag, hrec, List.length_cons, Nat.succ_sub hle, List.replicate_succ]

section Ballots

variable {blake3 : Bytes → H} {results : Results} {p : UInt8} {e : String} {h : H}
  (hu : Uniform blake3 results p e h)

include hu

theorem Uniform.parityBallots :
    parityBallots results = List.replicate (records results).length p := by
  rw [ConsensusVerdict.parityBallots, List.filter_eq_self.mpr
    (fun r hr => hu.valid r ((mem_records results r).mp hr)), List.eq_replicate_iff]
  refine ⟨List.length_map _,fun b hb => ?_⟩
  obtain ⟨r,hr,rfl⟩ := List.mem_map.mp hb
  exact hu.parity r ((mem_records results r).mp hr)

theorem Uniform.etagBallots :
    etagBallots results = List.replicate (records results).length e := by
  have hall : (records results).filterMap etagOf = (records results).map (fun _ => e) := by
    rw [← List.filterMap_eq_map]
    exact List.filterMap_congr (fun r hr => hu.etag r ((mem_records results r).mp hr))
  rw [ConsensusVerdict.etagBallots, hall, List.map_const', List.filter_eq_self.mpr]
  intro a ha
  rw [List.eq_of_mem_replicate ha]
  simpa using hu.etag_ne

theorem Uniform.matches (r : FileInfo) (hr : .ok r ∈ results) : recordEtagMatches r e := by
  simp [recordEtagMatches, hu.etag r hr]

theorem Uniform.hashBallots :
    hashBallots blake3 results e = List.replicate (records results).length h := by
  rw [ConsensusVerdict.hashBallots, List.filter_eq_self.mpr
    (fun r hr => hu.matches r ((mem_records results r).mp hr)), List.eq_replicate_iff]
  refine ⟨List.length_map _,fun b hb => ?_⟩
  obtain ⟨r,hr,rfl⟩ := List.mem_map.mp hb
  exact hu.contract r ((mem_records results r).mp hr)

theorem Uniform.head_contractBallots :
    (contractBallots (metasOf results) e).head? = served results := by
  rw [contractBallots, metasOf, List.zipIdx_map, List.filterMap_map, served,
    ← List.head?_filterMap]
  congr 1
  apply List.filterMap_congr
  rintro ⟨x,i⟩ hx
  cases x with
  | error err => rfl
  | ok r => simp [Except.toOption, hu.matches r (List.fst_mem_of_mem_zipIdx hx)]

variable [DecidableEq H]

/-- Past the error gate a quorum of agreeing records is served by the lowest
disk that has one. -/
theorem Uniform.voteRecords (o : HashOrders H) (bucket key : String) (r : ℕ × FileInfo)
    (hq : readQuorum results.length p ≤ (records results).length)
    (hs : served results = some r) :
    voteRecords o blake3 bucket key (metasOf results) results.length = .ok r := by
  have hne : (records results).length ≠ 0 := (served_isSome results).mp (by rw [hs]; rfl)
  have hparity : commonParity o.parities (metasOf results) results.length = some p := by
    cases hc : commonParity o.parities (metasOf results) results.length with
    | none =>
      have hlt := (commonParity_none _ results).mp hc p
      rw [hu.parityBallots, List.count_replicate_self] at hlt
      exact absurd (hlt (List.mem_replicate.mpr ⟨hne,rfl⟩)) (Nat.not_lt.mpr hq)
    | some p' =>
      have hl := commonParity_some _ results p' hc
      rw [hu.parityBallots] at hl
      rw [List.eq_of_mem_replicate hl.1]
  have hetag : commonEtag o.etags (metasOf results) (readQuorum results.length p) = some e := by
    cases hc : commonEtag o.etags (metasOf results) (readQuorum results.length p) with
    | none =>
      have hlt := commonEtag_none _ results _ hc e
      rw [hu.etagBallots, List.count_replicate_self] at hlt
      exact absurd (hlt ⟨List.mem_replicate.mpr ⟨hne,rfl⟩,fun l => by
        rw [List.count_replicate_self]
        exact List.count_le_length.trans (by simp)⟩) (Nat.not_lt.mpr hq)
    | some e' =>
      have hl := (commonEtag_some _ results _ e' hc).1
      rw [hu.etagBallots] at hl
      rw [List.eq_of_mem_replicate hl.1]
  rw [Consensus.voteRecords, hparity]
  simp only [hetag]
  split
  · rename_i hmax
    rw [(counts_contracts blake3 results e).vote_none, hu.hashBallots,
      List.replicate_eq_nil_iff] at hmax
    exact absurd hmax hne
  · rename_i h' c w hmax
    have hT := counts_contracts blake3 results e
    obtain ⟨hm,hl⟩ := hT.vote_leads _ hmax
    have hh : h' = h := List.eq_of_mem_replicate (hu.hashBallots ▸ hl.1)
    have hc : c = (records results).length := by
      rw [show c = _ from hT.size _ hm, hu.hashBallots, hh, List.count_replicate_self]
    have hw := ((mem_tally_first _ _ h' c w).mp hm).1
    rw [List.filter_eq_self.mpr, hu.head_contractBallots, hs, Option.some.injEq] at hw
    · rw [hw, if_neg (by omega)]
    · intro m hmem
      have hi := ((mem_contractBallots results e m.1 m.2).mp hmem).1
      simpa using hh.trans (hu.contract m.2 (List.mem_of_getElem? hi)).symm

/-- A quorum of agreeing records behind an open gate is read back, and nothing
else is. -/
theorem Uniform.readWithConsensus_eq_ok (o : HashOrders H) (bucket key : String)
    (r : ℕ × FileInfo) :
    readWithConsensus o blake3 bucket key results = .ok r ↔
      ¬Gated results ∧ readQuorum results.length p ≤ (records results).length ∧
        served results = some r := by
  constructor
  · intro hread
    have hv := readWithConsensus_verdict o blake3 bucket key results
    rw [hread] at hv
    cases hv with
    | accept hg p' hl e' he hq i fi hi hm hh hc =>
      rw [hu.parityBallots] at hl
      obtain rfl := List.eq_of_mem_replicate hl.1
      have hquorum := hl.2.1
      rw [List.count_replicate_self] at hquorum
      have hne : (records results).length ≠ 0 := (List.mem_replicate.mp hl.1).1
      obtain ⟨s,hs⟩ := Option.isSome_iff_exists.mp ((served_isSome results).mpr hne)
      rw [readWithConsensus_not_gated o blake3 bucket key results hg,
        hu.voteRecords o bucket key s hquorum hs] at hread
      exact ⟨hg,hquorum,hs.trans (congrArg some (Except.ok.inj hread))⟩
  · rintro ⟨hg,hq,hs⟩
    rw [readWithConsensus_not_gated o blake3 bucket key results hg]
    exact hu.voteRecords o bucket key r hq hs

end Ballots

end Openlake.ConsensusUniform
