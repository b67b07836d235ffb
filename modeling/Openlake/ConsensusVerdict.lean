import Openlake.Consensus

/-!
# What the consensus votes can return

`Verdict` lists the possible results with the counts that lead to each. Every run
of `readWithConsensus` gives a verdict, whatever the iteration orders, and every
verdict is the outcome of a run under some iteration orders.
-/

set_option autoImplicit false

namespace Openlake.ConsensusVerdict
open Openlake.Types Consensus Lib.Tally

abbrev Results := List (Except IoError FileInfo)

def votingErrors (results : Results) : List IoError :=
  (errsOf results).reduceOption.filter (fun e => !livenessNoise e)

def records (results : Results) : List FileInfo := (metasOf results).reduceOption

variable (results : Results)

theorem length_records_le : (records results).length ≤ results.length :=
  (List.length_filterMap_le _ _).trans (by simp [metasOf])

def errorBallots (results : Results) : List ErrorTag := (votingErrors results).map errorTag

def parityBallots (results : Results) : List UInt8 :=
  ((records results).filter (fun m => erasureIsValid m.erasure)).map (parityVote results.length)

def etagBallots (results : Results) : List String :=
  ((records results).filterMap etagOf).filter (fun e => e ≠ "")

def Gated (results : Results) : Prop :=
  ∃ t, half results.length ≤ (errorBallots results).count t

variable {H : Type}

def hashBallots (blake3 : Bytes → H) (results : Results) (etag : String) : List H :=
  ((records results).filter (fun fi => recordEtagMatches fi etag)).map (decodeContractHash blake3)

inductive Verdict [DecidableEq H] (blake3 : Bytes → H) (bucket key : String) (results : Results) :
    Except StorageError (ℕ × FileInfo) → Prop
  | gate (e : IoError) (he : e ∈ votingErrors results)
      (ht : Leads (errorBallots results) (errorTag e))
      (hc : half results.length ≤ (errorBallots results).count (errorTag e)) :
      Verdict blake3 bucket key results (.error (mapObjectMissing bucket key e))
  | noParity (hg : ¬Gated results)
      (hp : ∀ p ∈ parityBallots results,
        (parityBallots results).count p < readQuorum results.length p) (msg : String) :
      Verdict blake3 bucket key results (.error (.insufficientOnlineDrives bucket key msg))
  | noEtag (hg : ¬Gated results) (p : UInt8)
      (hp : LeadsAmong (readQuorum results.length) (parityBallots results) p)
      (he : ∀ e, Leads (etagBallots results) e →
        (etagBallots results).count e < readQuorum results.length p) (msg : String) :
      Verdict blake3 bucket key results (.error (.inconsistentMeta bucket key msg))
  | noContract (hg : ¬Gated results) (p : UInt8)
      (hp : LeadsAmong (readQuorum results.length) (parityBallots results) p) (e : String)
      (he : Leads (etagBallots results) e)
      (hq : readQuorum results.length p ≤ (etagBallots results).count e) (h : H)
      (hh : Leads (hashBallots blake3 results e) h)
      (hc : (hashBallots blake3 results e).count h < readQuorum results.length p) (msg : String) :
      Verdict blake3 bucket key results (.error (.inconsistentMeta bucket key msg))
  | accept (hg : ¬Gated results) (p : UInt8)
      (hp : LeadsAmong (readQuorum results.length) (parityBallots results) p) (e : String)
      (he : Leads (etagBallots results) e)
      (hq : readQuorum results.length p ≤ (etagBallots results).count e)
      (i : ℕ) (fi : FileInfo) (hi : results[i]? = some (.ok fi))
      (hm : recordEtagMatches fi e)
      (hh : Leads (hashBallots blake3 results e) (decodeContractHash blake3 fi))
      (hc : readQuorum results.length p ≤
        (hashBallots blake3 results e).count (decodeContractHash blake3 fi)) :
      Verdict blake3 bucket key results (.ok (i,fi))

theorem dominantError_some (o : IterOrder (ErrorTag × ℕ × IoError)) (results : Results) (c : ℕ)
    (e : IoError) (h : dominantError o (errsOf results) = (c,some e)) :
    e ∈ votingErrors results ∧ Leads (errorBallots results) (errorTag e) ∧
      c = (errorBallots results).count (errorTag e) := by
  rw [dominantError] at h
  split at h
  · rename_i t c' e' hmax
    obtain ⟨rfl,he⟩ := Prod.mk.inj h
    obtain rfl := Option.some.inj he
    obtain ⟨hm,ht⟩ := (counts_firstStep errorTag (votingErrors results)).vote_leads o hmax
    obtain ⟨hhead,hc⟩ := (mem_tally_first errorTag _ t c' e').mp hm
    have hmem := List.mem_filter.mp (List.mem_of_head? hhead)
    have htag : t = errorTag e' := by simpa using hmem.2
    subst htag
    exact ⟨hmem.1,ht,hc⟩
  · simp at h

theorem dominantError_none (o : IterOrder (ErrorTag × ℕ × IoError)) (results : Results) (c : ℕ)
    (h : dominantError o (errsOf results) = (c,none)) : errorBallots results = [] := by
  rw [dominantError] at h
  split at h
  · simp at h
  · rename_i hmax
    exact ((counts_firstStep errorTag (votingErrors results)).vote_none o).mp hmax

theorem exists_dominantError (t : ErrorTag)
    (ht : Leads (errorBallots results) t) :
    ∃ o c e, dominantError o (errsOf results) = (c,some e) ∧ errorTag e = t := by
  obtain ⟨o,⟨t',c,e⟩,htag,hmax⟩ :=
    (counts_firstStep errorTag (votingErrors results)).exists_vote ht
  have hd : dominantError o (errsOf results) = (c,some e) := by
    simp only [dominantError]
    rw [show (errsOf results).reduceOption.filter (fun e => !livenessNoise e) =
      votingErrors results from rfl, hmax]
  obtain ⟨hm,-⟩ := (counts_firstStep errorTag (votingErrors results)).vote_leads o hmax
  have hmem := List.mem_filter.mp (List.mem_of_head? ((mem_tally_first errorTag _ t' c e).mp hm).1)
  have hte : t' = errorTag e := by simpa using hmem.2
  exact ⟨o,c,e,hd,by rw [← hte]; exact htag⟩

theorem commonParity_some (o : IterOrder (UInt8 × ℕ)) (results : Results) (p : UInt8)
    (h : commonParity o (metasOf results) results.length = some p) :
    LeadsAmong (readQuorum results.length) (parityBallots results) p := by
  rw [commonParity, Option.map_eq_some_iff] at h
  obtain ⟨e,hs,rfl⟩ := h
  exact ((counts_countStep _ _).scan_leadsAmong (readQuorum results.length) o hs).2

theorem commonParity_none (o : IterOrder (UInt8 × ℕ)) (results : Results) :
    commonParity o (metasOf results) results.length = none ↔
      ∀ p ∈ parityBallots results, (parityBallots results).count p < readQuorum results.length p := by
  rw [commonParity, Option.map_eq_none_iff]
  exact (counts_countStep _ _).scan_none (readQuorum results.length) o

theorem exists_commonParity (p : UInt8)
    (hp : LeadsAmong (readQuorum results.length) (parityBallots results) p) :
    ∃ o, commonParity o (metasOf results) results.length = some p := by
  obtain ⟨o,e,rfl,hs⟩ := (counts_countStep (parityVote results.length) _).exists_scan _ hp
  exact ⟨o,by rw [commonParity, Option.map_eq_some_iff]; exact ⟨e,hs,rfl⟩⟩

theorem counts_etags : Counts (etagBallots results) Prod.snd
    (tally id countStep (((metasOf results).reduceOption.filterMap etagOf).filter
      (fun e => e ≠ "")) []) := by
  have h := counts_countStep id (etagBallots results)
  rwa [List.map_id] at h

theorem commonEtag_some (o : IterOrder (String × ℕ)) (results : Results) (q : ℕ) (e : String)
    (h : commonEtag o (metasOf results) q = some e) :
    Leads (etagBallots results) e ∧ q ≤ (etagBallots results).count e := by
  simp only [commonEtag] at h
  split at h
  · simp at h
  · rename_i w c hmax
    obtain ⟨hm,ht⟩ := (counts_etags results).vote_leads o hmax
    have hc := (counts_etags results).size _ hm
    split_ifs at h with hq
    obtain rfl := Option.some.inj h
    exact ⟨ht,by simpa [← hc] using hq⟩

theorem commonEtag_none (o : IterOrder (String × ℕ)) (results : Results) (q : ℕ)
    (h : commonEtag o (metasOf results) q = none) (e : String)
    (he : Leads (etagBallots results) e) : (etagBallots results).count e < q := by
  simp only [commonEtag] at h
  split at h
  · rename_i hmax
    rw [(counts_etags results).vote_none o] at hmax
    simp [Leads, hmax] at he
  · rename_i w c hmax
    obtain ⟨hm,ht⟩ := (counts_etags results).vote_leads o hmax
    have hc : c = (etagBallots results).count w := (counts_etags results).size _ hm
    split_ifs at h with hq
    have hle : (etagBallots results).count e ≤ (etagBallots results).count w := ht.2 e
    omega

theorem exists_commonEtag (q : ℕ) (e : String)
    (he : Leads (etagBallots results) e) (hq : q ≤ (etagBallots results).count e) :
    ∃ o, commonEtag o (metasOf results) q = some e := by
  obtain ⟨o,⟨w,c⟩,rfl,hmax⟩ := (counts_etags results).exists_vote he
  have hc : c = _ := (counts_etags results).size _ ((counts_etags results).vote_leads o hmax).1
  refine ⟨o,?_⟩
  simp only [commonEtag, hmax]
  rw [if_pos (by omega)]

theorem contractBallots_snd (etag : String) :
    (contractBallots (metasOf results) etag).map Prod.snd =
      (records results).filter (fun fi => recordEtagMatches fi etag) := by
  rw [contractBallots, records]
  generalize metasOf results = metas
  suffices h : ∀ k, ((metas.zipIdx k).filterMap (fun m => m.1.bind (fun fi =>
      if recordEtagMatches fi etag then some (m.2,fi) else none))).map Prod.snd =
      metas.reduceOption.filter (fun fi => recordEtagMatches fi etag) from h 0
  induction metas with
  | nil => intro k; rfl
  | cons m metas ih =>
    intro k
    rw [List.zipIdx_cons, List.filterMap_cons]
    cases m with
    | none => simpa [List.reduceOption_cons_of_none] using ih (k+1)
    | some fi =>
      rw [List.reduceOption_cons_of_some, List.filter_cons]
      by_cases hm : recordEtagMatches fi etag <;> simp [hm, ih (k+1)]

theorem contractBallots_hash (blake3 : Bytes → H) (results : Results) (etag : String) :
    (contractBallots (metasOf results) etag).map (fun m => decodeContractHash blake3 m.2) =
      hashBallots blake3 results etag := by
  rw [hashBallots, ← contractBallots_snd, List.map_map]
  rfl

theorem mem_contractBallots (etag : String) (i : ℕ) (fi : FileInfo) :
    (i,fi) ∈ contractBallots (metasOf results) etag ↔
      results[i]? = some (.ok fi) ∧ recordEtagMatches fi etag := by
  simp only [contractBallots, List.mem_filterMap, Prod.exists, List.mem_zipIdx_iff_getElem?,
    metasOf, List.getElem?_map, Option.map_eq_some_iff]
  constructor
  · rintro ⟨m,j,⟨r,hr,rfl⟩,hb⟩
    cases r with
    | error e => simp [Except.toOption] at hb
    | ok fi' =>
      by_cases hm : recordEtagMatches fi' etag <;> simp [Except.toOption, hm] at hb
      obtain ⟨rfl,rfl⟩ := hb
      exact ⟨hr,hm⟩
  · rintro ⟨hr,hm⟩
    exact ⟨some fi,i,⟨_,hr,rfl⟩,by simp [hm]⟩

variable [DecidableEq H]

theorem counts_contracts (blake3 : Bytes → H) (results : Results) (etag : String) :
    Counts (hashBallots blake3 results etag) (fun e => e.2.1)
      (tally (fun m => decodeContractHash blake3 m.2) firstStep
        (contractBallots (metasOf results) etag) []) := by
  rw [← contractBallots_hash]
  exact counts_firstStep _ _

theorem contract_winner (blake3 : Bytes → H) (results : Results) (etag : String)
    (o : IterOrder (H × ℕ × ℕ × FileInfo)) (h : H) (c : ℕ) (w : ℕ × FileInfo)
    (hmax : maxByKey (fun e => e.2.1) (o.arrange
      (tally (fun m => decodeContractHash blake3 m.2) firstStep
        (contractBallots (metasOf results) etag) [])) = some (h,c,w)) :
    Leads (hashBallots blake3 results etag) h ∧ c = (hashBallots blake3 results etag).count h ∧
      h = decodeContractHash blake3 w.2 ∧ results[w.1]? = some (.ok w.2) ∧
      recordEtagMatches w.2 etag := by
  have hT := counts_contracts blake3 results etag
  obtain ⟨hm,hh⟩ := hT.vote_leads _ hmax
  have hmem := List.mem_filter.mp (List.mem_of_head? ((mem_tally_first _ _ h c w).mp hm).1)
  obtain ⟨hi,hmatch⟩ := (mem_contractBallots results etag w.1 w.2).mp hmem.1
  exact ⟨hh,hT.size _ hm,by simpa using hmem.2,hi,hmatch⟩

/-- Past the error gate, the votes return a verdict under any iteration
orders. -/
theorem voteRecords_verdict (o : HashOrders H) (blake3 : Bytes → H) (bucket key : String)
    (results : Results) (hg : ¬Gated results) :
    Verdict blake3 bucket key results
      (voteRecords o blake3 bucket key (metasOf results) results.length) := by
  rw [voteRecords]
  split
  · rename_i hp
    exact .noParity hg ((commonParity_none _ results).mp hp) _
  · rename_i p hp
    have hp' := commonParity_some _ results p hp
    simp only
    split
    · rename_i he
      exact .noEtag hg p hp' (commonEtag_none _ results _ he) _
    · rename_i e he
      obtain ⟨ht,hq⟩ := commonEtag_some _ results _ e he
      have hT := counts_contracts blake3 results e
      split
      · rename_i hmax
        rw [hT.vote_none] at hmax
        obtain ⟨fi,hfi,hfe⟩ := List.mem_filterMap.mp (List.mem_filter.mp ht.1).1
        have hmem : decodeContractHash blake3 fi ∈ hashBallots blake3 results e :=
          List.mem_map_of_mem (List.mem_filter.mpr ⟨hfi,by simp [recordEtagMatches, hfe]⟩)
        simp [hmax] at hmem
      · rename_i h c w hmax
        obtain ⟨hh,hc,hw,hi,hmatch⟩ := contract_winner blake3 results e _ h c w hmax
        split_ifs with hlt
        · exact .noContract hg p hp' e ht hq h hh (by omega) _
        · subst hw
          exact .accept hg p hp' e ht hq w.1 w.2 hi hmatch hh (by omega)

theorem readWithConsensus_not_gated (o : HashOrders H) (blake3 : Bytes → H)
    (bucket key : String) (results : Results) (hg : ¬Gated results) :
    readWithConsensus o blake3 bucket key results =
      voteRecords o blake3 bucket key (metasOf results) results.length := by
  simp only [readWithConsensus]
  split
  · rename_i c e hd
    obtain ⟨-,-,hc⟩ := dominantError_some _ _ _ _ hd
    rw [if_neg]
    exact fun h => hg ⟨errorTag e,by omega⟩
  · rfl

/-- Every result of the consensus is a verdict on the ballots. -/
theorem readWithConsensus_verdict (o : HashOrders H) (blake3 : Bytes → H)
    (bucket key : String) (results : Results) :
    Verdict blake3 bucket key results (readWithConsensus o blake3 bucket key results) := by
  by_cases hg : Gated results
  · obtain ⟨t,ht⟩ := hg
    simp only [readWithConsensus]
    split
    · rename_i c e hd
      obtain ⟨he,hlead,hc⟩ := dominantError_some _ _ _ _ hd
      have hle := hlead.2 t
      rw [if_pos (by omega)]
      exact .gate e he hlead (by omega)
    · rename_i c hd
      rw [dominantError_none _ _ _ hd] at ht
      simp [half] at ht
  · rw [readWithConsensus_not_gated o blake3 bucket key results hg]
    exact voteRecords_verdict o blake3 bucket key results hg

end Openlake.ConsensusVerdict
