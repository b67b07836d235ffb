import Openlake.Listing
import Openlake.StatVotes

/-!
# The votes of a listing and of a stat

Both choose one record of the key. The listing asks half the disks to agree on
the signature, the stat asks its read quorum to agree on the decode contract
and closes when half the disks lack the key. `Concurs` says on the counts when
the two choices are the same whatever the iteration orders.
-/

set_option autoImplicit false

namespace Openlake.ListedStat
open Openlake.Types Consensus ConsensusVerdict ConsensusOrder ConsensusContract Listing StatVotes

/-- How many disks hold a record with the signature as the latest version. -/
def held (results : Results) (s : Signature) : ℕ := ((records results).map signature).count s

variable {H : Type} [DecidableEq H]

/-- A signature on half the disks that the stat chooses too. -/
structure Backed (blake3 : Bytes → H) (p : UInt8) (results : Results) (s : Signature) : Prop where
  present : majority results.length < (records results).length
  parity : ParityOk p results
  etag_ne : s.etag ≠ ""
  alone : ∀ s', s' ≠ s → held results s' < majority results.length
  etag_alone : ∀ e, e ≠ s.etag → (etagBallots results).count e < majority results.length
  reaches : ∃ h, quorum p results ≤ (votersOf blake3 results s.etag h).length
  first : ∀ h w, Reaches blake3 p results s.etag h w → signature w.2 = s

def listed (o : VoteOrder) (results : Results) : Option FileInfo :=
  (voteFileinfo o (records results) (majority results.length)).filter (fun fi => !fi.deleted)

def stated (o : HashOrders H) (blake3 : Bytes → H) (bucket key : String) (results : Results) :
    Option FileInfo :=
  ((readWithConsensus o blake3 bucket key results).toOption.map Prod.snd).filter
    (fun fi => !fi.deleted)

/-- The two votes choose alike, when the listing shows the key at all. -/
structure Concurs (blake3 : Bytes → H) (p : UInt8) (results : Results) (shown : Prop) : Prop where
  backed : shown → ∀ s, s.deleted = false → majority results.length ≤ held results s →
    Backed blake3 p results s
  shown : ∀ e h w, majority results.length < (records results).length → ParityOk p results →
    Reaches blake3 p results e h w → w.2.deleted = false →
    shown ∧ majority results.length ≤ held results (signature w.2)

theorem deleted_signature (fi : FileInfo) : (signature fi).deleted = fi.deleted := rfl

section Votes

variable {d p : UInt8} {results : Results} (g : Geometry d p results)

omit [DecidableEq H] in
theorem length_signatures_le :
    ((records results).map signature).length ≤ results.length := by
  rw [List.length_map]
  exact length_records_le results

include g

theorem exists_vote_of_held (s : Signature) (hs : majority results.length ≤ held results s) :
    ∃ o fi, voteFileinfo o (records results) (majority results.length) = some fi ∧
      signature fi = s := by
  have hsize := g.size
  have hpos := g.pos
  have hlead := leads_of_half _ results.length s (by omega) length_signatures_le hs
  exact exists_voteFileinfo _ _ s ⟨hlead.1,hs,fun l _ _ => hlead.2 l⟩

omit g in
theorem held_of_listed (o : VoteOrder) (fi : FileInfo) (h : listed o results = some fi) :
    majority results.length ≤ held results (signature fi) ∧ fi.deleted = false := by
  rw [listed, Option.filter_eq_some_iff] at h
  exact ⟨(voteFileinfo_some o _ _ fi h.1).2.2.1,by simpa using h.2⟩

omit g in
theorem listed_of_vote (o : VoteOrder) (fi : FileInfo) (hlive : fi.deleted = false)
    (h : voteFileinfo o (records results) (majority results.length) = some fi) :
    listed o results = some fi := by
  rw [listed, h, Option.filter_some_pos (by simpa using hlive)]

theorem listed_of_alone (s : Signature) (hlive : s.deleted = false)
    (hs : majority results.length ≤ held results s)
    (halone : ∀ s', s' ≠ s → held results s' < majority results.length) (o : VoteOrder) :
    (listed o results).map signature = some s := by
  have hsize := g.size
  have hpos := g.pos
  cases hv : voteFileinfo o (records results) (majority results.length) with
  | none =>
    rw [voteFileinfo_none] at hv
    have hmem : s ∈ (records results).map signature :=
      List.count_pos_iff.mp (lt_of_lt_of_le (by rw [majority]; omega) hs)
    exact absurd (hv s hmem) (not_lt.mpr hs)
  | some fi =>
    have hheld := (voteFileinfo_some o _ _ fi hv).2.2.1
    have hsig : signature fi = s := by
      by_contra hne
      exact absurd (halone _ hne) (not_lt.mpr hheld)
    rw [listed_of_vote o fi (by rw [← deleted_signature, hsig, hlive]) hv, Option.map_some, hsig]

omit g in
theorem stated_eq_some (o : HashOrders H) (blake3 : Bytes → H) (bucket key : String)
    (fi : FileInfo) :
    stated o blake3 bucket key results = some fi ↔
      ∃ i, readWithConsensus o blake3 bucket key results = .ok (i,fi) ∧ fi.deleted = false := by
  rw [stated, Option.filter_eq_some_iff]
  cases readWithConsensus o blake3 bucket key results with
  | error e => simp [Except.toOption]
  | ok w =>
    obtain ⟨i,w⟩ := w
    simp [Except.toOption]

theorem Backed.stated {blake3 : Bytes → H} {s : Signature} (hb : Backed blake3 p results s)
    (hlive : s.deleted = false) (o : HashOrders H) (bucket key : String) :
    (stated o blake3 bucket key results).map signature = some s := by
  have hmaj := g.majority_le_quorum
  have hg : ¬Gated results := fun hg => absurd (g.gated_iff.mp hg) (by have := hb.present; omega)
  obtain ⟨h₀,hreach⟩ := hb.reaches
  obtain ⟨w₀,hw₀⟩ := g.exists_reaches blake3 s.etag h₀ hb.etag_ne hreach
  have hetag := hw₀.quorum_le_count
  have honly : ∀ e, quorum p results ≤ (etagBallots results).count e → e = s.etag := by
    intro e he
    by_contra hne
    have hlt := hb.etag_alone e hne
    omega
  rw [length_votersOf] at hreach
  have hok : ∃ w, readWithConsensus o blake3 bucket key results = .ok w := by
    have hv := readWithConsensus_verdict o blake3 bucket key results
    cases hr : readWithConsensus o blake3 bucket key results with
    | ok w => exact ⟨w,rfl⟩
    | error err =>
      rw [hr] at hv
      exfalso
      cases hv with
      | gate e he ht hc => exact hg ⟨_,hc⟩
      | noParity _ hp =>
        obtain ⟨q,hq⟩ := g.exists_parity hb.parity
        exact absurd (hp q hq.1) (not_lt.mpr hq.2.1)
      | noEtag _ q hq he =>
        rw [(g.quorum_of_leads q hq).1] at he
        have hlt := he s.etag (g.etag_leads s.etag (hmaj.trans hetag))
        omega
      | noContract _ q hq e he hqe h hh hc =>
        rw [(g.quorum_of_leads q hq).1] at hqe hc
        obtain rfl := honly e hqe
        have hle := hh.2 h₀
        omega
  obtain ⟨w,hw⟩ := hok
  obtain ⟨-,-,e,h,hr⟩ := g.read_ok blake3 o bucket key w hw
  obtain rfl := honly e hr.quorum_le_count
  have hsig := hb.first h w hr
  have hstated : ListedStat.stated o blake3 bucket key results = some w.2 :=
    (stated_eq_some o blake3 bucket key w.2).mpr ⟨w.1,hw,by rw [← deleted_signature, hsig, hlive]⟩
  rw [hstated, Option.map_some, hsig]

/-- The listing shows a signature exactly when the stat returns it. -/
def Alike (blake3 : Bytes → H) (bucket key : String) (results : Results) (shown : Prop) : Prop :=
  ∀ (ol : VoteOrder) (os : HashOrders H) (s : Signature),
    (shown ∧ (listed ol results).map signature = some s) ↔
      (ListedStat.stated os blake3 bucket key results).map signature = some s

variable (blake3 : Bytes → H) (bucket key : String) (shown : Prop)

theorem alike_of_concurs (hc : Concurs blake3 p results shown) :
    Alike blake3 bucket key results shown := by
  intro ol os s
  constructor
  · rintro ⟨hshown,hl⟩
    obtain ⟨fi,hfi,rfl⟩ := Option.map_eq_some_iff.mp hl
    obtain ⟨hheld,hlive⟩ := held_of_listed ol fi hfi
    exact (hc.backed hshown (signature fi) hlive hheld).stated g hlive os bucket key
  · intro hs
    obtain ⟨fi,hfi,rfl⟩ := Option.map_eq_some_iff.mp hs
    obtain ⟨i,hread,hlive⟩ := (stated_eq_some os blake3 bucket key fi).mp hfi
    obtain ⟨hrec,hp,e,h,hr⟩ := g.read_ok blake3 os bucket key _ hread
    obtain ⟨hshown,hheld⟩ := hc.shown e h _ hrec hp hr hlive
    have hb := hc.backed hshown (signature fi) hlive hheld
    exact ⟨hshown,listed_of_alone g _ hlive hheld hb.alone ol⟩

section

variable (ha : Alike blake3 bucket key results shown) (hshown : shown) (s : Signature)
  (hlive : s.deleted = false) (hs : majority results.length ≤ held results s)

include ha hshown hlive hs

theorem Alike.stated_of_held (os : HashOrders H) :
    (ListedStat.stated os blake3 bucket key results).map signature = some s := by
  obtain ⟨ol,fi,hvote,rfl⟩ := exists_vote_of_held g s hs
  apply (ha ol os (signature fi)).mp
  exact ⟨hshown,by rw [listed_of_vote ol fi hlive hvote, Option.map_some]⟩

theorem Alike.backed :
    Backed blake3 p results s := by
  have hstated := ha.stated_of_held g blake3 bucket key shown hshown s hlive hs
  have hmaj := g.majority_le_quorum
  -- whatever a run of the votes returns, it is a record with this signature
  have hrun : ∀ (os : HashOrders H), ∃ w, readWithConsensus os blake3 bucket key results = .ok w ∧
      signature w.2 = s := by
    intro os
    obtain ⟨fi,hfi,hsig⟩ := Option.map_eq_some_iff.mp (hstated os)
    obtain ⟨i,hread,-⟩ := (stated_eq_some os blake3 bucket key fi).mp hfi
    exact ⟨(i,fi),hread,hsig⟩
  obtain ⟨w,hw,hsig⟩ := hrun ⟨.insertion _,.insertion _,.insertion _,.insertion _⟩
  obtain ⟨hrec,hp,e,h,hr⟩ := g.read_ok blake3 _ bucket key w hw
  have hg : ¬Gated results := fun hg => absurd (g.gated_iff.mp hg) (by omega)
  have hetag : ∀ e h w, Reaches blake3 p results e h w → e = (signature w.2).etag := by
    intro e h w hr
    have htag := (mem_votersOf blake3 e h w (List.mem_of_head? hr.first)).1
    simp [signature, htag]
  have he : e = s.etag := hsig ▸ hetag e h w hr
  subst he
  refine ⟨hrec,hp,hr.etag_ne,?_,?_,⟨h,hr.reaches⟩,?_⟩
  · intro s' hne
    by_contra hs'
    obtain ⟨ol,fi,hvote,rfl⟩ := exists_vote_of_held g s' (not_lt.mp hs')
    have hl := ((ha ol ⟨.insertion _,.insertion _,.insertion _,.insertion _⟩ s).mpr (hstated _)).2
    obtain ⟨fi',hfi',hs'⟩ := Option.map_eq_some_iff.mp hl
    rw [listed, hvote, Option.filter_eq_some_iff] at hfi'
    exact hne (by rw [Option.some.inj hfi'.1, hs'])
  · intro e' hne
    by_contra he'
    obtain ⟨q,hq⟩ := g.exists_parity hp
    obtain ⟨h',hc⟩ := exists_contest blake3 results q e' hq (g.etag_leads e' (not_lt.mp he'))
    obtain ⟨os,hwin,hlose⟩ := contest_read blake3 bucket key results hg q e' h' hc
    obtain ⟨w₁,hw₁,hsig₁⟩ := hrun os
    by_cases hreach : readQuorum results.length q ≤ (hashBallots blake3 results e').count h'
    · obtain ⟨w₂,hw₂,hhead⟩ := hwin hreach
      obtain rfl := Except.ok.inj (hw₂.symm.trans hw₁)
      have htag := (mem_votersOf blake3 e' h' w₂ (List.mem_of_head? hhead)).1
      apply hne
      rw [← hsig₁]
      simp [signature, htag]
    · obtain ⟨msg,hmsg⟩ := hlose (not_le.mp hreach)
      rw [hw₁] at hmsg
      cases hmsg
  · intro h' w' hr'
    obtain ⟨os,hread⟩ := g.read_of_reaches blake3 bucket key hrec hp s.etag h' w' hr'
    obtain ⟨w₁,hw₁,hsig₁⟩ := hrun os
    obtain rfl := Except.ok.inj (hread.symm.trans hw₁)
    exact hsig₁

end

theorem concurs_of_alike (ha : Alike blake3 bucket key results shown) :
    Concurs blake3 p results shown := by
  refine ⟨fun hshown s => ha.backed g blake3 bucket key shown hshown s,?_⟩
  intro e h w hrec hp hr hlive
  obtain ⟨os,hread⟩ := g.read_of_reaches blake3 bucket key hrec hp e h w hr
  have hstated : ListedStat.stated os blake3 bucket key results = some w.2 :=
    (stated_eq_some os blake3 bucket key w.2).mpr ⟨w.1,hread,hlive⟩
  obtain ⟨hshown,hl⟩ := (ha (.insertion _) os (signature w.2)).mpr (by rw [hstated, Option.map_some])
  obtain ⟨fi,hfi,hsig⟩ := Option.map_eq_some_iff.mp hl
  exact ⟨hshown,hsig ▸ (held_of_listed _ fi hfi).1⟩

theorem alike_iff : Alike blake3 bucket key results shown ↔ Concurs blake3 p results shown :=
  ⟨concurs_of_alike g blake3 bucket key shown,alike_of_concurs g blake3 bucket key shown⟩

end Votes

end Openlake.ListedStat
