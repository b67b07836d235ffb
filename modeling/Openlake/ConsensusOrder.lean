import Openlake.ConsensusVerdict

/-!
# When the consensus depends on an iteration order

The outcome of a read is the accepted contract hash or the class of the
error. A vote that ties leaves the choice to the iteration order of its hash
map, so the outcome is fixed exactly when the tied candidates lead to the
same place. `Decisive` says this on the ballot counts.
-/

set_option autoImplicit false

namespace Openlake.ConsensusOrder
open Openlake.Types Consensus ConsensusVerdict Lib.Tally

inductive ErrorClass where
  | bucketNotFound | bucketAlreadyExists | bucketNotEmpty | objectNotFound | versionNotFound
  | invalidBucketName | invalidObjectKey | lockTimeout | lockLost | inconsistentMeta
  | insufficientOnlineDrives
  | io (t : ErrorTag)
  deriving DecidableEq, Repr

def errorClass : StorageError → ErrorClass
  | .bucketNotFound _ => .bucketNotFound
  | .bucketAlreadyExists _ => .bucketAlreadyExists
  | .bucketNotEmpty _ => .bucketNotEmpty
  | .objectNotFound .. => .objectNotFound
  | .versionNotFound .. => .versionNotFound
  | .invalidBucketName _ => .invalidBucketName
  | .invalidObjectKey _ => .invalidObjectKey
  | .lockTimeout _ => .lockTimeout
  | .lockLost _ => .lockLost
  | .inconsistentMeta .. => .inconsistentMeta
  | .insufficientOnlineDrives .. => .insufficientOnlineDrives
  | .io e => .io (errorTag e)

def gateClass : ErrorTag → ErrorClass
  | .fileNotFound => .objectNotFound
  | .fileVersionNotFound => .versionNotFound
  | .volumeNotFound => .bucketNotFound
  | t => .io t

theorem errorClass_mapObjectMissing (bucket key : String) (e : IoError) :
    errorClass (mapObjectMissing bucket key e) = gateClass (errorTag e) := by
  cases e <;> rfl

theorem gateClass_injective : Function.Injective gateClass := by
  intro s t h
  cases s <;> cases t <;> simp_all [gateClass]

variable {H : Type}

def outcome (blake3 : Bytes → H) : Except StorageError (ℕ × FileInfo) → Except ErrorClass H
  | .error e => .error (errorClass e)
  | .ok r => .ok (decodeContractHash blake3 r.2)

section Permutation

variable {results results' : Results}

theorem errorBallots_perm (h : results.Perm results') :
    (errorBallots results).Perm (errorBallots results') :=
  (((h.map _).filterMap id).filter _).map errorTag

theorem records_perm (h : results.Perm results') : (records results).Perm (records results') :=
  (h.map _).filterMap id

theorem parityBallots_perm (h : results.Perm results') :
    (parityBallots results).Perm (parityBallots results') := by
  rw [parityBallots, parityBallots, h.length_eq]
  exact ((records_perm h).filter _).map _

theorem etagBallots_perm (h : results.Perm results') :
    (etagBallots results).Perm (etagBallots results') :=
  ((records_perm h).filterMap etagOf).filter _

theorem hashBallots_perm (blake3 : Bytes → H) (h : results.Perm results') (e : String) :
    (hashBallots blake3 results e).Perm (hashBallots blake3 results' e) :=
  ((records_perm h).filter _).map _

theorem gated_perm (h : results.Perm results') : Gated results → Gated results' := by
  rintro ⟨t,ht⟩
  exact ⟨t,by rwa [← (errorBallots_perm h).count_eq, ← h.length_eq]⟩

end Permutation

variable [DecidableEq H] (blake3 : Bytes → H) (bucket key : String)

/-- A verdict on one order of the disks is a verdict, with the same outcome,
on any other. -/
theorem verdict_perm {results results' : Results}
    (hp : results.Perm results') (x : Except StorageError (ℕ × FileInfo))
    (h : Verdict blake3 bucket key results x) :
    ∃ y, Verdict blake3 bucket key results' y ∧ outcome blake3 y = outcome blake3 x := by
  have hlen := hp.length_eq
  have hg := fun hg : Gated results' => gated_perm hp.symm hg
  cases h with
  | gate e he ht hc =>
    refine ⟨_,.gate e ?_ (ht.perm (errorBallots_perm hp)) ?_,rfl⟩
    · exact ((((hp.map _).filterMap id).filter _).mem_iff).mp he
    · rwa [← (errorBallots_perm hp).count_eq, ← hlen]
  | noParity hng hq msg =>
    refine ⟨_,.noParity (hng ∘ hg) (fun p hm => ?_) msg,rfl⟩
    rw [← (parityBallots_perm hp).count_eq, ← hlen]
    exact hq p ((parityBallots_perm hp).mem_iff.mpr hm)
  | noEtag hng p hq he msg =>
    refine ⟨_,.noEtag (hng ∘ hg) p (hlen ▸ hq.perm (parityBallots_perm hp)) (fun e ht => ?_) msg,rfl⟩
    rw [← (etagBallots_perm hp).count_eq, ← hlen]
    exact he e (ht.perm (etagBallots_perm hp).symm)
  | noContract hng p hq e he hc h hh hlt msg =>
    refine ⟨_,.noContract (hng ∘ hg) p (hlen ▸ hq.perm (parityBallots_perm hp)) e
      (he.perm (etagBallots_perm hp)) ?_ h (hh.perm (hashBallots_perm blake3 hp e)) ?_ msg,rfl⟩
    · rwa [← (etagBallots_perm hp).count_eq, ← hlen]
    · rwa [← (hashBallots_perm blake3 hp e).count_eq, ← hlen]
  | accept hng p hq e he hc i fi hi hm hh hle =>
    obtain ⟨j,hj⟩ := List.mem_iff_getElem?.mp (hp.mem_iff.mp (List.mem_of_getElem? hi))
    refine ⟨_,.accept (hng ∘ hg) p (hlen ▸ hq.perm (parityBallots_perm hp)) e
      (he.perm (etagBallots_perm hp)) ?_ j fi hj hm (hh.perm (hashBallots_perm blake3 hp e)) ?_,rfl⟩
    · rwa [← (etagBallots_perm hp).count_eq, ← hlen]
    · rwa [← (hashBallots_perm blake3 hp e).count_eq, ← hlen]

def OrderFree (blake3 : Bytes → H) (bucket key : String) (results : Results) : Prop :=
  ∀ (o o' : HashOrders H) (results' : Results), results'.Perm results →
    outcome blake3 (readWithConsensus o' blake3 bucket key results') =
      outcome blake3 (readWithConsensus o blake3 bucket key results)

def Contest (blake3 : Bytes → H) (results : Results) (p : UInt8) (e : String) (h : H) : Prop :=
  LeadsAmong (readQuorum results.length) (parityBallots results) p ∧ Leads (etagBallots results) e ∧
    Leads (hashBallots blake3 results e) h

def Decisive (blake3 : Bytes → H) (results : Results) : Prop :=
  (Gated results → ∀ s t, Leads (errorBallots results) s → Leads (errorBallots results) t → s = t) ∧
  (¬Gated results →
    (∀ p e h, Contest blake3 results p e h →
      (hashBallots blake3 results e).count h < readQuorum results.length p) ∨
    ∃ h₀, ∀ p e h, Contest blake3 results p e h →
      h = h₀ ∧ readQuorum results.length p ≤ (hashBallots blake3 results e).count h)

omit [DecidableEq H] in
theorem length_hashBallots (blake3 : Bytes → H) (results : Results) (e : String)
    (he : e ∈ etagBallots results) :
    (hashBallots blake3 results e).length = (etagBallots results).count e := by
  have hne : e ≠ "" := by simpa using (List.mem_filter.mp he).2
  rw [hashBallots, etagBallots, List.length_map, List.count_filter (by simpa using hne)]
  induction records results with
  | nil => rfl
  | cons fi rest ih =>
    rw [List.filter_cons, List.filterMap_cons]
    cases hf : etagOf fi with
    | none => simpa [recordEtagMatches, hf] using ih
    | some f =>
      simp only [recordEtagMatches, hf, Option.some.injEq] at ih ⊢
      by_cases hfe : f = e <;> simp [hfe, ih]

variable (results : Results)

theorem count_hash_le (e : String)
    (he : e ∈ etagBallots results) (h : H) :
    (hashBallots blake3 results e).count h ≤ (etagBallots results).count e := by
  rw [← length_hashBallots blake3 results e he]
  exact List.count_le_length

theorem exists_contest (p : UInt8) (e : String)
    (hp : LeadsAmong (readQuorum results.length) (parityBallots results) p)
    (he : Leads (etagBallots results) e) : ∃ h, Contest blake3 results p e h := by
  have hne : hashBallots blake3 results e ≠ [] := by
    rw [← List.length_pos_iff, length_hashBallots blake3 results e he.1, List.count_pos_iff]
    exact he.1
  obtain ⟨h,hh⟩ := exists_leads _ hne
  exact ⟨h,hp,he,hh⟩

def contestOutcome (blake3 : Bytes → H) (results : Results) (p : UInt8) (e : String) (h : H) :
    Except ErrorClass H :=
  if readQuorum results.length p ≤ (hashBallots blake3 results e).count h then .ok h
  else .error .inconsistentMeta

/-- Past the gate an outcome is settled by the parity vote, by the absence of
etags, or by one contest of tied candidates. -/
theorem verdict_contest (hg : ¬Gated results) (x : Except StorageError (ℕ × FileInfo))
    (h : Verdict blake3 bucket key results x) :
    ((∀ p, ¬LeadsAmong (readQuorum results.length) (parityBallots results) p) ∧
      outcome blake3 x = .error .insufficientOnlineDrives) ∨
    (∃ p, LeadsAmong (readQuorum results.length) (parityBallots results) p) ∧
      (((∀ e, ¬Leads (etagBallots results) e) ∧ outcome blake3 x = .error .inconsistentMeta) ∨
        ∃ p e h, Contest blake3 results p e h ∧
          outcome blake3 x = contestOutcome blake3 results p e h) := by
  cases h with
  | gate e he ht hc => exact absurd ⟨_,hc⟩ hg
  | noParity _ hp msg =>
    refine .inl ⟨fun p hq => ?_,rfl⟩
    have := hp p hq.1
    have := hq.2.1
    omega
  | noEtag _ p hp he msg =>
    refine .inr ⟨⟨p,hp⟩,?_⟩
    by_cases hn : ∃ e, Leads (etagBallots results) e
    · obtain ⟨e,hte⟩ := hn
      obtain ⟨h,hcon⟩ := exists_contest blake3 results p e hp hte
      have hlt := he e hte
      have hle := count_hash_le blake3 results e hte.1 h
      exact .inr ⟨p,e,h,hcon,by rw [contestOutcome, if_neg (by omega)]; rfl⟩
    · exact .inl ⟨fun e ht => hn ⟨e,ht⟩,rfl⟩
  | noContract _ p hp e he hq h hh hc msg =>
    refine .inr ⟨⟨p,hp⟩,.inr ⟨p,e,h,⟨hp,he,hh⟩,?_⟩⟩
    rw [contestOutcome, if_neg (by omega)]
    rfl
  | accept _ p hp e he hq i fi hi hm hh hc =>
    refine .inr ⟨⟨p,hp⟩,.inr ⟨p,e,_,⟨hp,he,hh⟩,?_⟩⟩
    rw [contestOutcome, if_pos hc]
    rfl

/-- Every contest of tied candidates decides the read under some iteration
orders: the first record of the class wins, or the class misses the quorum. -/
theorem contest_read (hg : ¬Gated results) (p : UInt8) (e : String) (h : H)
    (hc : Contest blake3 results p e h) :
    ∃ o : HashOrders H,
      (readQuorum results.length p ≤ (hashBallots blake3 results e).count h →
        ∃ w, readWithConsensus o blake3 bucket key results = .ok w ∧
          ((contractBallots (metasOf results) e).filter
            (fun m => h = decodeContractHash blake3 m.2)).head? = some w) ∧
      ((hashBallots blake3 results e).count h < readQuorum results.length p →
        ∃ msg, readWithConsensus o blake3 bucket key results =
          .error (.inconsistentMeta bucket key msg)) := by
  obtain ⟨hp,he,hh⟩ := hc
  obtain ⟨op,hop⟩ := exists_commonParity results p hp
  have hT := counts_contracts blake3 results e
  obtain ⟨oc,⟨h',c,w⟩,rfl,hmax⟩ := hT.exists_vote hh
  obtain ⟨-,hcount,-⟩ := contract_winner blake3 results e oc h' c w hmax
  have hhead := ((mem_tally_first _ _ h' c w).mp (hT.vote_leads _ hmax).1).1
  have hle := count_hash_le blake3 results e he.1 h'
  by_cases hq : readQuorum results.length p ≤ (etagBallots results).count e
  · obtain ⟨oe,hoe⟩ := exists_commonEtag results _ e he hq
    refine ⟨⟨.insertion _,op,oe,oc⟩,?_⟩
    rw [readWithConsensus_not_gated _ _ _ _ _ hg, voteRecords]
    simp only [hop, hoe, hmax, hcount]
    refine ⟨fun hwin => ⟨w,?_,hhead⟩,fun hlose => ?_⟩
    · rw [if_neg (by omega)]
    · rw [if_pos hlose]
      exact ⟨_,rfl⟩
  · refine ⟨⟨.insertion _,op,.insertion _,oc⟩,fun hwin => absurd (hwin.trans hle) hq,fun _ => ?_⟩
    rw [readWithConsensus_not_gated _ _ _ _ _ hg, voteRecords]
    have hnone : commonEtag (.insertion _) (metasOf results) (readQuorum results.length p) = none := by
      cases hs : commonEtag (.insertion _) (metasOf results) (readQuorum results.length p) with
      | none => rfl
      | some e' =>
        obtain ⟨-,hle'⟩ := commonEtag_some _ results _ e' hs
        have := he.2 e'
        omega
    simp only [hop, hnone]
    exact ⟨_,rfl⟩

theorem contest_attained (hg : ¬Gated results) (p : UInt8) (e : String) (h : H)
    (hc : Contest blake3 results p e h) :
    ∃ o : HashOrders H, outcome blake3 (readWithConsensus o blake3 bucket key results) =
      contestOutcome blake3 results p e h := by
  obtain ⟨o,hwin,hlose⟩ := contest_read blake3 bucket key results hg p e h hc
  refine ⟨o,?_⟩
  rw [contestOutcome]
  split_ifs with hq
  · obtain ⟨w,hw,hhead⟩ := hwin hq
    have hhash := (List.mem_filter.mp (List.mem_of_head? hhead)).2
    rw [hw, outcome, ← of_decide_eq_true hhash]
  · obtain ⟨msg,hmsg⟩ := hlose (by omega)
    rw [hmsg]
    rfl

theorem gate_attained (hg : Gated results) (t : ErrorTag) (ht : Leads (errorBallots results) t) :
    ∃ o : HashOrders H, outcome blake3 (readWithConsensus o blake3 bucket key results) =
      .error (gateClass t) := by
  obtain ⟨oe,c,e,hd,rfl⟩ := exists_dominantError results t ht
  obtain ⟨s,hs⟩ := hg
  have hc := (dominantError_some _ _ _ _ hd).2.2
  have hle := ht.2 s
  refine ⟨⟨oe,.insertion _,.insertion _,.insertion _⟩,?_⟩
  simp only [readWithConsensus, hd]
  rw [if_pos (by omega), outcome, errorClass_mapObjectMissing]

theorem decisive_outcome (hd : Decisive blake3 results) (x y : Except StorageError (ℕ × FileInfo))
    (hx : Verdict blake3 bucket key results x) (hy : Verdict blake3 bucket key results y) :
    outcome blake3 x = outcome blake3 y := by
  by_cases hg : Gated results
  · obtain ⟨s,hs,hxs⟩ : ∃ s, Leads (errorBallots results) s ∧
        outcome blake3 x = .error (gateClass s) := by
      cases hx with
      | gate e he ht hc => exact ⟨_,ht,by rw [outcome, errorClass_mapObjectMissing]⟩
      | _ => contradiction
    obtain ⟨t,ht,hyt⟩ : ∃ t, Leads (errorBallots results) t ∧
        outcome blake3 y = .error (gateClass t) := by
      cases hy with
      | gate e he ht hc => exact ⟨_,ht,by rw [outcome, errorClass_mapObjectMissing]⟩
      | _ => contradiction
    rw [hxs, hyt, hd.1 hg s t hs ht]
  · have hsame : ∀ p e h p' e' h', Contest blake3 results p e h → Contest blake3 results p' e' h' →
        contestOutcome blake3 results p e h = contestOutcome blake3 results p' e' h' := by
      intro p e h p' e' h' hc hc'
      rcases hd.2 hg with hall | ⟨h₀,hall⟩
      · have := hall p e h hc
        have := hall p' e' h' hc'
        rw [contestOutcome, contestOutcome, if_neg (by omega), if_neg (by omega)]
      · obtain ⟨rfl,hq⟩ := hall p e h hc
        obtain ⟨rfl,hq'⟩ := hall p' e' h' hc'
        rw [contestOutcome, contestOutcome, if_pos hq, if_pos hq']
    have hxc := verdict_contest blake3 bucket key results hg x hx
    have hyc := verdict_contest blake3 bucket key results hg y hy
    rcases hxc with ⟨hp,hx⟩ | ⟨⟨p,hp⟩,hx⟩ <;> rcases hyc with ⟨hp',hy⟩ | ⟨⟨p',hp'⟩,hy⟩
    · rw [hx, hy]
    · exact absurd hp' (hp p')
    · exact absurd hp (hp' p)
    · rcases hx with ⟨he,hx⟩ | ⟨p,e,h,hc,hx⟩ <;> rcases hy with ⟨he',hy⟩ | ⟨p',e',h',hc',hy⟩
      · rw [hx, hy]
      · exact absurd hc'.2.1 (he e')
      · exact absurd hc.2.1 (he' e)
      · rw [hx, hy, hsame p e h p' e' h' hc hc']

/-- The outcome of a read is independent of the hash-map iteration orders and
of the order of the disks exactly when no vote that matters is tied. -/
theorem orderFree_iff_decisive (blake3 : Bytes → H) (bucket key : String) (results : Results) :
    OrderFree blake3 bucket key results ↔ Decisive blake3 results := by
  constructor
  · intro hf
    refine ⟨fun hg s t hs ht => ?_,fun hg => ?_⟩
    · obtain ⟨o,ho⟩ := gate_attained blake3 bucket key results hg s hs
      obtain ⟨o',ho'⟩ := gate_attained blake3 bucket key results hg t ht
      have := hf o o' results (.refl _)
      rw [ho, ho'] at this
      exact (gateClass_injective (Except.error.inj this)).symm
    · by_cases hall : ∀ p e h, Contest blake3 results p e h →
          (hashBallots blake3 results e).count h < readQuorum results.length p
      · exact .inl hall
      · obtain ⟨p₀,e₀,h₀,hc₀,hq₀⟩ : ∃ p e h, Contest blake3 results p e h ∧
            readQuorum results.length p ≤ (hashBallots blake3 results e).count h := by
          simpa using hall
        refine .inr ⟨h₀,fun p e h hc => ?_⟩
        obtain ⟨o,ho⟩ := contest_attained blake3 bucket key results hg p₀ e₀ h₀ hc₀
        obtain ⟨o',ho'⟩ := contest_attained blake3 bucket key results hg p e h hc
        have hsame := hf o o' results (.refl _)
        rw [ho, ho', contestOutcome, contestOutcome, if_pos hq₀] at hsame
        split_ifs at hsame with hq
        exact ⟨Except.ok.inj hsame,hq⟩
  · intro hd o o' results' hp
    obtain ⟨y,hy,hyo⟩ := verdict_perm blake3 bucket key hp _
      (readWithConsensus_verdict o' blake3 bucket key results')
    rw [← hyo]
    exact decisive_outcome blake3 bucket key results hd y _ hy
      (readWithConsensus_verdict o blake3 bucket key results)

def splitErasure (index : UInt8) : ErasureInfo :=
  { algorithm := "ReedSolomon", dataBlocks := 2, parityBlocks := 2, blockSize := 2097152,
    index := index, distribution := [1,2,3,4] }

def splitRecord (etag : String) (modTimeMs : UInt64) (index : UInt8) : FileInfo :=
  { volume := "photos", name := "a.bin", versionId := "null", isLatest := true,
    modTimeMs := modTimeMs, size := 1, metadata := [("etag",etag)],
    parts := [{ etag := etag, number := 1, size := 1, actualSize := 1, modTimeMs := modTimeMs }],
    erasure := splitErasure index, numVersions := 1 }

def etagA : String := "0cc175b9c0f1b6a831c399e269772661"

def etagB : String := "92eb5ffee6ae2fec3ad71c777531578f"

def splitSet : Results :=
  [.ok (splitRecord etagA 1 1),.ok (splitRecord etagA 1 2),
    .ok (splitRecord etagB 2 3),.ok (splitRecord etagB 2 4)]

def splitDigest (input : Bytes) : Bytes :=
  if input = decodeContract (splitRecord etagA 1 1) then
    [11,5,138,163,198,21,198,82,218,111,3,136,252,24,26,124,152,144,107,176,156,123,173,24,19,
      204,190,21,147,63,242,66]
  else if input = decodeContract (splitRecord etagB 2 3) then
    [162,152,209,102,222,71,113,146,34,162,86,61,28,80,123,50,178,234,97,163,83,62,237,93,172,
      172,20,101,180,45,87,41]
  else []

/-- Two disks with an older record and two with a newer one both reach the
read quorum of two, and the etag map's iteration order picks the version. -/
theorem splitSet_not_orderFree : ¬OrderFree splitDigest "photos" "a.bin" splitSet := by
  intro h
  have hsame := h ⟨.insertion _,.insertion _,.insertion _,.insertion _⟩
    ⟨.insertion _,.insertion _,.lastOf (etagA,2),.insertion _⟩ splitSet (.refl _)
  revert hsame
  decide

end Openlake.ConsensusOrder
