import Openlake.ConsensusContract
import Openlake.ConsensusOrder
import Openlake.ConsensusUniform

/-!
# What a stat can return on a set of one geometry

All records of the set carry the parity of the set, and a disk without the key
answers that it has no such file. Then the votes of a read come down to counts
against one quorum: `n - parity` disks, or half the disks when half of them hold
delete markers or empty objects.
-/

set_option autoImplicit false

namespace Openlake.StatVotes
open Openlake.Types Consensus ConsensusVerdict ConsensusOrder ConsensusContract ConsensusUniform
open Lib.Tally

section Counts

variable {κ : Type} [DecidableEq κ]

theorem leads_of_half (v : List κ) (n : ℕ) (k : κ) (hn : 0 < n) (hv : v.length ≤ n)
    (hk : (n+1)/2 ≤ v.count k) : Leads v k := by
  refine ⟨List.count_pos_iff.mp (by omega),fun l => ?_⟩
  by_cases hl : k = l
  · rw [hl]
  · have hle := count_add_count_le v k l hl
    omega

end Counts

variable {H : Type} [DecidableEq H]

theorem read_ok_head (o : HashOrders H) (blake3 : Bytes → H) (bucket key : String)
    (results : Results) (w : ℕ × FileInfo)
    (h : readWithConsensus o blake3 bucket key results = .ok w) :
    ¬Gated results ∧ ∃ p e h, Contest blake3 results p e h ∧
      readQuorum results.length p ≤ (votersOf blake3 results e h).length ∧
      (votersOf blake3 results e h).head? = some w := by
  have hg : ¬Gated results := by
    intro hg
    have hv := readWithConsensus_verdict o blake3 bucket key results
    rw [h] at hv
    cases hv with
    | accept hng => exact hng hg
  refine ⟨hg,?_⟩
  rw [readWithConsensus_not_gated o blake3 bucket key results hg, voteRecords] at h
  split at h
  · cases h
  · rename_i p hp
    simp only at h
    split at h
    · cases h
    · rename_i e he
      split at h
      · cases h
      · rename_i h' c w' hmax
        split_ifs at h with hlt
        obtain rfl := Except.ok.inj h
        obtain ⟨hlead,hc,-⟩ := contract_winner blake3 results e _ h' c w' hmax
        have hmem := ((counts_contracts blake3 results e).vote_leads _ hmax).1
        refine ⟨p,e,h',⟨commonParity_some _ results p hp,(commonEtag_some _ results _ e he).1,hlead⟩,
          ?_,((mem_tally_first _ _ h' c w').mp hmem).1⟩
        rw [length_votersOf]
        omega

def majority (n : ℕ) : ℕ := (n+1)/2

/-- What the disks of a set with `d` data and `p` parity shards answer. -/
structure Geometry (d p : UInt8) (results : Results) : Prop where
  size : results.length = d.toNat+p.toNat
  pos : 1 ≤ p.toNat
  le : p.toNat ≤ d.toNat
  missing : ∀ e, .error e ∈ results → ∃ v k, e = .fileNotFound v k
  erasure : ∀ fi ∈ records results, erasureIsValid fi.erasure = true ∧ fi.erasure.parityBlocks = p

/-- How many disks hold a delete marker or an empty object. -/
def spare (results : Results) : ℕ :=
  (records results).countP (fun fi => fi.deleted || fi.size = 0)

def quorum (p : UInt8) (results : Results) : ℕ :=
  if majority results.length ≤ spare results then majority results.length
  else results.length-p.toNat

def ParityOk (p : UInt8) (results : Results) : Prop :=
  majority results.length ≤ spare results ∨
    results.length-p.toNat ≤ (parityBallots results).count p

section Set

variable {d p : UInt8} {results : Results} (g : Geometry d p results)

include g

theorem Geometry.gated_iff :
    Gated results ↔ (records results).length ≤ majority results.length := by
  have hsize := g.size
  have hpos := g.pos
  have hle := g.le
  have hlen := length_records_le results
  have hballots := errorBallots_uniform results .fileNotFound (fun e he => by
    obtain ⟨v,k,rfl⟩ := g.missing e he
    exact ⟨rfl,rfl⟩)
  rw [Gated, hballots, half, majority, Nat.max_eq_left (by omega)]
  constructor
  · rintro ⟨t,ht⟩
    have hcount := List.count_replicate (a := t) (b := ErrorTag.fileNotFound)
      (n := results.length-(records results).length)
    rw [hcount] at ht
    split_ifs at ht <;> omega
  · intro h
    refine ⟨.fileNotFound,?_⟩
    rw [List.count_replicate_self]
    omega

theorem Geometry.parityBallots_eq :
    parityBallots results = (records results).map (fun fi =>
      if fi.deleted || fi.size = 0 then UInt8.ofNat (results.length/2) else p) := by
  rw [parityBallots, List.filter_eq_self.mpr (fun fi hfi => (g.erasure fi hfi).1)]
  apply List.map_congr_left
  intro fi hfi
  rw [parityVote, (g.erasure fi hfi).2]

theorem Geometry.toNat_half : (UInt8.ofNat (results.length/2)).toNat = results.length/2 := by
  have hd := d.toNat_lt
  have hp := p.toNat_lt
  have hsize := g.size
  exact UInt8.toNat_ofNat_of_lt' (show results.length/2 < 256 by omega)

theorem Geometry.count_half (h : p.toNat ≠ results.length/2) :
    (parityBallots results).count (UInt8.ofNat (results.length/2)) = spare results := by
  have hne : p ≠ UInt8.ofNat (results.length/2) := by
    intro heq
    exact h (by rw [heq, g.toNat_half])
  rw [g.parityBallots_eq, spare, List.count, List.countP_map]
  apply List.countP_congr
  intro fi _
  rw [Function.comp_apply]
  cases fi.deleted || decide (fi.size = 0) <;> simp [hne]

theorem Geometry.mem_parityBallots (q : UInt8) (hq : q ∈ parityBallots results) :
    q = p ∨ q = UInt8.ofNat (results.length/2) := by
  rw [g.parityBallots_eq] at hq
  obtain ⟨fi,-,rfl⟩ := List.mem_map.mp hq
  split_ifs
  · exact .inr rfl
  · exact .inl rfl

theorem Geometry.quorum_of_leads (q : UInt8)
    (hq : LeadsAmong (readQuorum results.length) (parityBallots results) q) :
    readQuorum results.length q = quorum p results ∧ ParityOk p results := by
  have hsize := g.size
  have hpos := g.pos
  have hle := g.le
  have hhalf := g.toNat_half
  have hlen : (parityBallots results).length ≤ results.length := by
    rw [g.parityBallots_eq, List.length_map]
    exact length_records_le results
  have hreach := hq.2.1
  have hvotes := List.count_le_length (a := q) (l := parityBallots results)
  rw [quorum, ParityOk, majority]
  by_cases hph : p.toNat = results.length/2
  · have hpq : p = UInt8.ofNat (results.length/2) := UInt8.toNat_inj.mp (by rw [hhalf, hph])
    obtain rfl : q = p := by
      rcases g.mem_parityBallots q hq.1 with rfl | rfl
      · rfl
      · exact hpq.symm
    rw [readQuorum, if_pos (by omega)] at hreach ⊢
    refine ⟨?_,.inr hreach⟩
    split_ifs <;> omega
  · have hspare := g.count_half hph
    have hne : p ≠ UInt8.ofNat (results.length/2) := fun h => hph (by rw [h, hhalf])
    have htotal := count_add_count_le (parityBallots results) _ _ hne
    rcases g.mem_parityBallots q hq.1 with rfl | rfl
    · rw [readQuorum, if_pos (by omega)] at hreach ⊢
      refine ⟨?_,.inr hreach⟩
      rw [if_neg (by omega)]
    · rw [readQuorum, if_pos (by omega), hhalf] at hreach ⊢
      rw [hspare] at hreach
      refine ⟨?_,.inl (by omega)⟩
      rw [if_pos (by omega)]
      omega

theorem Geometry.spare_le :
    spare results ≤ (parityBallots results).count (UInt8.ofNat (results.length/2)) := by
  rw [g.parityBallots_eq, spare, List.count, List.countP_map]
  apply List.countP_mono_left
  intro fi _ hfi
  rw [Function.comp_apply, if_pos hfi]
  exact beq_self_eq_true _

theorem Geometry.exists_parity (h : ParityOk p results) :
    ∃ q, LeadsAmong (readQuorum results.length) (parityBallots results) q := by
  have hsize := g.size
  have hpos := g.pos
  have hle := g.le
  have hreach : ∃ q ∈ parityBallots results,
      readQuorum results.length q ≤ (parityBallots results).count q := by
    rcases h with h | h
    · have hspare := g.spare_le
      rw [majority] at h
      refine ⟨UInt8.ofNat (results.length/2),List.count_pos_iff.mp (by omega),?_⟩
      rw [readQuorum, g.toNat_half, if_pos (by omega)]
      omega
    · refine ⟨p,List.count_pos_iff.mp (by omega),?_⟩
      rwa [readQuorum, if_pos (by omega)]
  cases hv : commonParity (.insertion _) (metasOf results) results.length with
  | some q => exact ⟨q,commonParity_some _ results q hv⟩
  | none =>
    obtain ⟨q,hmem,hq⟩ := hreach
    exact absurd ((commonParity_none _ results).mp hv q hmem) (by omega)

theorem Geometry.majority_le_quorum : majority results.length ≤ quorum p results := by
  have hsize := g.size
  have hle := g.le
  rw [quorum, majority]
  split_ifs <;> omega

omit g in
theorem mem_votersOf (blake3 : Bytes → H) (e : String) (h : H) (w : ℕ × FileInfo)
    (hw : w ∈ votersOf blake3 results e h) :
    etagOf w.2 = some e ∧ w.2 ∈ records results := by
  obtain ⟨hi,hm⟩ := (mem_contractBallots results e w.1 w.2).mp (List.mem_filter.mp hw).1
  exact ⟨by simpa [recordEtagMatches] using hm,
    (mem_records results w.2).mpr (List.mem_of_getElem? hi)⟩

omit g in
theorem mem_etagBallots (e : String) (fi : FileInfo) (he : e ≠ "") (hfi : fi ∈ records results)
    (htag : etagOf fi = some e) : e ∈ etagBallots results :=
  List.mem_filter.mpr ⟨List.mem_filterMap.mpr ⟨fi,hfi,htag⟩,by simpa using he⟩

variable (blake3 : Bytes → H)

/-- A contract class that reaches the quorum, with its first record. -/
structure Reaches (blake3 : Bytes → H) (p : UInt8) (results : Results) (e : String) (h : H)
    (w : ℕ × FileInfo) : Prop where
  etag_ne : e ≠ ""
  reaches : quorum p results ≤ (votersOf blake3 results e h).length
  first : (votersOf blake3 results e h).head? = some w

omit g in
theorem length_etagBallots_le : (etagBallots results).length ≤ results.length :=
  (List.length_filter_le _ _).trans ((List.length_filterMap_le _ _).trans (length_records_le results))

theorem Geometry.exists_reaches (e : String) (h : H) (he : e ≠ "")
    (hq : quorum p results ≤ (votersOf blake3 results e h).length) :
    ∃ w, Reaches blake3 p results e h w := by
  have hsize := g.size
  have hpos := g.pos
  have hmaj := g.majority_le_quorum
  rw [majority] at hmaj
  obtain ⟨w,l,hcons⟩ := List.exists_cons_of_length_pos
    (show 0 < (votersOf blake3 results e h).length by omega)
  exact ⟨w,he,hq,by rw [hcons]; rfl⟩

omit g in
theorem Reaches.mem_etagBallots {blake3 : Bytes → H} {e : String} {h : H} {w : ℕ × FileInfo}
    (hr : Reaches blake3 p results e h w) : e ∈ etagBallots results := by
  obtain ⟨htag,hrec⟩ := mem_votersOf blake3 e h w (List.mem_of_head? hr.first)
  exact StatVotes.mem_etagBallots e w.2 hr.etag_ne hrec htag

omit g in
theorem Reaches.quorum_le_count {blake3 : Bytes → H} {e : String} {h : H} {w : ℕ × FileInfo}
    (hr : Reaches blake3 p results e h w) : quorum p results ≤ (etagBallots results).count e := by
  have hreach := hr.reaches
  rw [length_votersOf] at hreach
  exact hreach.trans (count_hash_le blake3 results e hr.mem_etagBallots h)

theorem Geometry.etag_leads (e : String)
    (he : majority results.length ≤ (etagBallots results).count e) : Leads (etagBallots results) e := by
  have hsize := g.size
  have hpos := g.pos
  exact leads_of_half _ results.length e (by omega) length_etagBallots_le he

theorem Geometry.contest_of_reaches (hp : ParityOk p results) (e : String) (h : H)
    (w : ℕ × FileInfo) (hr : Reaches blake3 p results e h w) :
    ∃ q, Contest blake3 results q e h ∧ readQuorum results.length q = quorum p results := by
  have hsize := g.size
  have hpos := g.pos
  have hmaj := g.majority_le_quorum
  have hreach := hr.reaches
  obtain ⟨q,hq⟩ := g.exists_parity hp
  have hlen : (hashBallots blake3 results e).length ≤ results.length := by
    rw [length_hashBallots blake3 results e hr.mem_etagBallots]
    exact List.count_le_length.trans length_etagBallots_le
  rw [length_votersOf] at hreach
  refine ⟨q,⟨hq,g.etag_leads e (hmaj.trans hr.quorum_le_count),?_⟩,(g.quorum_of_leads q hq).1⟩
  exact leads_of_half _ results.length h (by omega) hlen (hmaj.trans hreach)

theorem Geometry.read_of_reaches (bucket key : String)
    (hrec : majority results.length < (records results).length) (hp : ParityOk p results)
    (e : String) (h : H) (w : ℕ × FileInfo) (hr : Reaches blake3 p results e h w) :
    ∃ o : HashOrders H, readWithConsensus o blake3 bucket key results = .ok w := by
  obtain ⟨q,hc,hq⟩ := g.contest_of_reaches blake3 hp e h w hr
  have hg : ¬Gated results := fun hg => absurd (g.gated_iff.mp hg) (by omega)
  obtain ⟨o,hwin,-⟩ := contest_read blake3 bucket key results hg q e h hc
  obtain ⟨w',hread,hhead⟩ := hwin (by rw [hq, ← length_votersOf]; exact hr.reaches)
  obtain rfl := Option.some.inj (hr.first.symm.trans hhead)
  exact ⟨o,hread⟩

theorem Geometry.read_ok (o : HashOrders H) (bucket key : String) (w : ℕ × FileInfo)
    (h : readWithConsensus o blake3 bucket key results = .ok w) :
    majority results.length < (records results).length ∧ ParityOk p results ∧
      ∃ e h, Reaches blake3 p results e h w := by
  obtain ⟨hg,q,e,h,hc,hreach,hhead⟩ := read_ok_head o blake3 bucket key results w h
  obtain ⟨hq,hp⟩ := g.quorum_of_leads q hc.1
  refine ⟨not_le.mp (fun hle => hg (g.gated_iff.mpr hle)),hp,e,h,?_,hq ▸ hreach,hhead⟩
  simpa using (List.mem_filter.mp hc.2.1.1).2

end Set

end Openlake.StatVotes
