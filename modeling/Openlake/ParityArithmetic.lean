import Openlake.ConsensusVerdict
import Openlake.RecordBytes

/-!
# The subtractions of the parity vote

The parity vote subtracts the parity of a record from the size of the set, and
`readWithConsensus` does so once more with the parity elected. Here both are
computed with the overflow checks of a debug build: `none` is the panic. A record
is validated against its own geometry only, so its parity can reach the size of
the set and exceed it.
-/

set_option autoImplicit false

namespace Openlake.ParityArithmetic
open Openlake.Types XlMeta LocalFs Consensus ConsensusVerdict Records RecordBytes Lib.Tally

def checkedSub (a b : ℕ) : Option ℕ := if b ≤ a then some (a-b) else none

def scanChecked (n : ℕ) : Option (UInt8 × ℕ) → List (UInt8 × ℕ) → Option (Option (UInt8 × ℕ))
  | best, [] => some best
  | best, (p,occ)::rest => do
    let quorum ← checkedSub n p.toNat
    if occ < quorum then scanChecked n best rest
    else if best.all (fun b => b.2 < occ) then scanChecked n (some (p,occ)) rest
    else scanChecked n best rest

def commonParityChecked (o : IterOrder (UInt8 × ℕ)) (metas : List (Option FileInfo)) (n : ℕ) :
    Option (Option UInt8) :=
  let counts := tally (parityVote n) countStep
    (metas.reduceOption.filter (fun m => erasureIsValid m.erasure)) []
  (scanChecked n none (o.arrange counts)).map (Option.map Prod.fst)

theorem scanChecked_eq (n : ℕ) (l : List (UInt8 × ℕ)) (best : Option (UInt8 × ℕ)) :
    scanChecked n best l = if ∀ e ∈ l, e.1.toNat ≤ n then
      some (scanMax (fun e => readQuorum n e.1 ≤ e.2) Prod.snd best l) else none := by
  induction l generalizing best with
  | nil => simp [scanChecked, scanMax]
  | cons e rest ih =>
    obtain ⟨p,occ⟩ := e
    simp only [scanChecked, checkedSub, List.forall_mem_cons]
    by_cases hp : p.toNat ≤ n
    · have hquorum : readQuorum n p = n-p.toNat := if_pos hp
      simp only [hp, if_true, Option.bind_eq_bind, Option.bind_some, true_and, ih, scanMax,
        hquorum, Bool.and_eq_true, decide_eq_true_eq]
      by_cases hocc : occ < n-p.toNat
      · have hnot : ¬(n-p.toNat ≤ occ ∧ best.all (fun b => b.2 < occ) = true) := by omega
        rw [if_pos hocc, if_neg hnot]
      · have hle : n-p.toNat ≤ occ := by omega
        simp only [hocc, hle, if_false, true_and]
        split_ifs <;> rfl
    · simp [hp]

section Vote

variable (results : Results)

theorem commonParityChecked_eq (o : IterOrder (UInt8 × ℕ)) :
    commonParityChecked o (metasOf results) results.length =
      if ∀ p ∈ parityBallots results, p.toNat ≤ results.length then
        some (commonParity o (metasOf results) results.length) else none := by
  have hcounts := counts_countStep (parityVote results.length)
    ((metasOf results).reduceOption.filter (fun m => erasureIsValid m.erasure))
  have hfits : (∀ e ∈ o.arrange (tally (parityVote results.length) countStep
      ((metasOf results).reduceOption.filter (fun m => erasureIsValid m.erasure)) []),
        e.1.toNat ≤ results.length) ↔ ∀ p ∈ parityBallots results, p.toNat ≤ results.length := by
    simp only [o.mem_arrange]
    constructor
    · intro h p hp
      obtain ⟨w,hw⟩ := (hcounts.key p).mp hp
      exact h _ hw
    · intro h e he
      exact h e.1 ((hcounts.key e.1).mpr ⟨e.2,he⟩)
  simp only [commonParityChecked, commonParity, scanChecked_eq, hfits]
  split_ifs <;> rfl

/-- A parity that fits the set and has its read quorum is held by more records. -/
def Outvoted (p : UInt8) : Prop :=
  ∃ p' ∈ parityBallots results, p'.toNat < results.length ∧
    results.length ≤ p'.toNat+(parityBallots results).count p' ∧
    (parityBallots results).count p < (parityBallots results).count p'

theorem leads_of_full {p : UInt8} (hp : p ∈ parityBallots results)
    (hfull : p.toNat = results.length)
    (hfits : ∀ p' ∈ parityBallots results, p'.toNat ≤ results.length)
    (hout : ¬Outvoted results p) :
    LeadsAmong (readQuorum results.length) (parityBallots results) p := by
  refine ⟨hp,by simp [readQuorum, hfull],fun p' hp' hquorum => ?_⟩
  rw [readQuorum, if_pos (hfits p' hp')] at hquorum
  by_contra hlt
  by_cases heq : p'.toNat = results.length
  · rw [UInt8.toNat_inj.mp (heq.trans hfull.symm)] at hlt
    omega
  · have := hfits p' hp'
    exact hout ⟨p',hp',by omega,by omega,by omega⟩

theorem below_of_leads {p : UInt8}
    (hlead : LeadsAmong (readQuorum results.length) (parityBallots results) p)
    (hfits : p.toNat ≤ results.length) (hout : p.toNat = results.length → Outvoted results p) :
    p.toNat < results.length := by
  by_contra hnot
  obtain ⟨p',hp',hlt,hquorum,hmore⟩ := hout (by omega)
  have := hlead.2.2 p' hp' (by rw [readQuorum, if_pos hlt.le]; omega)
  omega

/-- No subtraction underflows and the quorum of the vote is positive, in every
order of the counts, exactly when no parity exceeds the set and a parity as large
as the set is outvoted. -/
theorem parity_fits_iff :
    (∀ o, ∃ best, commonParityChecked o (metasOf results) results.length = some best ∧
      ∀ p ∈ best, p.toNat ≤ results.length-1 ∧
        ∃ quorum, checkedSub results.length p.toNat = some quorum ∧ 1 ≤ quorum) ↔
    ∀ p ∈ parityBallots results, p.toNat ≤ results.length ∧
      (p.toNat = results.length → Outvoted results p) := by
  simp only [commonParityChecked_eq]
  constructor
  · intro h
    have hfits : ∀ p ∈ parityBallots results, p.toNat ≤ results.length := by
      obtain ⟨best,hbest,-⟩ := h (IterOrder.insertion _)
      by_contra hnot
      rw [if_neg hnot] at hbest
      cases hbest
    intro p hp
    refine ⟨hfits p hp,fun hfull => ?_⟩
    by_contra hout
    obtain ⟨o,ho⟩ := exists_commonParity results p (leads_of_full results hp hfull hfits hout)
    obtain ⟨best,hbest,hquorum⟩ := h o
    rw [if_pos hfits, ho] at hbest
    obtain rfl := Option.some.inj hbest
    obtain ⟨-,quorum,hsub,hpos⟩ := hquorum p rfl
    rw [checkedSub, if_pos hfull.le, Option.some.injEq] at hsub
    omega
  · intro h o
    refine ⟨_,if_pos (fun p hp => (h p hp).1),fun p hp => ?_⟩
    have hlead := commonParity_some o results p hp
    obtain ⟨hfits,hout⟩ := h p hlead.1
    have hlt := below_of_leads results hlead hfits hout
    exact ⟨by omega,_,if_pos hlt.le,by omega⟩

end Vote

/-- The record of an object of one byte on the first of four disks. -/
def widePut : FileInfo :=
  { firstPut with erasure := { defaultErasureInfo 2 2 4 with index := 1 } }

def wideCodec : MetaCodec := tableCodec [recordsOf [widePut]] Lib.Xxh64.xxh64 (by simp)

def wideMeta : Bytes := (encodeVersions wideCodec [widePut]).toOption.getD []

def reported (c : MetaCodec) (bytes : Bytes) (n : ℕ) : Results :=
  List.replicate n (versionFrom c "b" "k" bytes none false)

/-- A record of two data and two parity blocks is accepted. On a set of one disk
the vote underflows, and on a set of two it elects a quorum of nothing. -/
theorem wide_record_misfits :
    (decodeAll wideCodec wideMeta).toOption.map (List.map DecodedRecord.erasure) =
      some [widePut.erasure] ∧
    commonParityChecked (IterOrder.insertion _) (metasOf (reported wideCodec wideMeta 1)) 1 =
      none ∧
    commonParityChecked (IterOrder.insertion _) (metasOf (reported wideCodec wideMeta 2)) 2 =
      some (some 2) ∧
    checkedSub 2 2 = some 0 := by
  decide +kernel

end Openlake.ParityArithmetic
