import Openlake.DeleteObject
import Openlake.SetRecords

/-!
# Deleting an object on all disks

A DELETE runs on every disk of the set and succeeds when one disk deleted the
object. A disk whose call fails keeps the object, so the votes of the next read
count the disks that kept it against those that lost it.
-/

set_option autoImplicit false

namespace Openlake.DeleteQuorum
open Openlake.Types XlMeta LocalFs Promote Consensus ConsensusVerdict ConsensusUniform
open ConsensusTolerance Records GetObject SetRecords Lib.FileTree Lib.Effects

def isFileNotFound : IoError → Bool
  | .fileNotFound .. => true
  | _ => false

def deleteOutcome (bucket key : String) (failures : List (Option IoError)) :
    Except StorageError Unit :=
  if failures.any Option.isNone then .ok ()
  else
    match failures.reduceOption.find? (fun e => !isFileNotFound e) with
    | some e => .error (mapObjectMissing bucket key e)
    | none => .error (.objectNotFound bucket key)

section Set

variable {n : ℕ}

/-- A fault is a disk whose call fails and leaves it as it was. -/
def delete (c : MetaCodec) (lock : Except StorageError Unit) (faults : Fin n → Option IoError)
    (bucket key : String) : Engine n Unit := fun disks =>
  match lock with
  | .error e => .error e disks
  | .ok () =>
    let results := fun i => attempt (faults i) (deleteObjectScoped c bucket key) (disks i)
    lift (deleteOutcome bucket key (List.ofFn (fun i => failureOf (value (results i)))))
      (fun i => left (results i))

def deletedOn (faults : Fin n → Option IoError) : ℕ := (List.ofFn faults).countP Option.isNone

def lostOn (bucket key : String) (faults : Fin n → Option IoError) (i : ℕ) : Option IoError :=
  if h : i < n then
    match faults ⟨i,h⟩ with
    | none => some (.fileNotFound bucket key)
    | some _ => none
  else none

theorem failures_lostOn (bucket key : String) (faults : Fin n → Option IoError) :
    failures n (lostOn bucket key faults) =
      List.replicate (deletedOn faults) (.fileNotFound bucket key) := by
  rw [List.eq_replicate_iff]
  constructor
  · rw [failures, deletedOn, ← List.map_coe_finRange_eq_range, List.filterMap_map,
      List.length_filterMap_eq_countP, List.ofFn_eq_map, List.countP_map]
    apply List.countP_congr
    intro i _
    cases h : faults i <;> simp [lostOn, h]
  · intro e he
    obtain ⟨i,-,hi⟩ := List.mem_filterMap.mp he
    simp only [lostOn] at hi
    split_ifs at hi with h
    cases hf : faults ⟨i,h⟩ with
    | none =>
      rw [hf] at hi
      exact (Option.some.inj hi).symm
    | some e' =>
      rw [hf] at hi
      cases hi

theorem gated_lostOn (P : ℕ) (fi : FileInfo) (bucket key : String)
    (faults : Fin n → Option IoError) :
    Gated (diskResults n P fi (lostOn bucket key faults)) ↔ half n ≤ deletedOn faults := by
  have htags : failureTags n (lostOn bucket key faults) =
      List.replicate (deletedOn faults) .fileNotFound := by
    rw [failureTags, failures_lostOn, List.filter_eq_self.mpr, List.map_replicate]
    · rfl
    · intro e he
      rw [List.eq_of_mem_replicate he]
      rfl
  rw [Gated, errorBallots_diskResults, length_diskResults, htags]
  constructor
  · rintro ⟨t,ht⟩
    exact ht.trans (List.count_le_length.trans (by simp))
  · exact fun hs => ⟨.fileNotFound,by rwa [List.count_replicate_self]⟩

/-- After a deletion that worked the metadata is missing. -/
theorem readVersion_deleted (c : MetaCodec) (bucket key : String) (t t' : Disk) (raw : Bytes)
    (h : Deleted c bucket key raw t t') (versionId : Option String) (readData : Bool) :
    value (readVersion c bucket key versionId readData t') = .error (.fileNotFound bucket key) := by
  have hvol : look t' [bucket] = some .dir := by
    rcases h.above [bucket] (by simp [filePath]) with hd | ⟨-,hn⟩
    · exact hd
    · exact absurd List.prefix_rfl hn
  obtain ⟨s,hs,-⟩ := requireVol_of_dir bucket t' hvol
  rw [readVersion_value c bucket key t' ⟨_,s,hs⟩, h.readFile]
  rfl

section Present

variable {c : MetaCodec} {bucket key : String} {versionId : Option String} {readData : Bool}
  {P : ℕ} {fi : FileInfo} {disks : Disks n}
  (h : OnAllDisks c bucket key versionId readData P fi disks) (faults : Fin n → Option IoError)

include h

theorem delete_cases (i : Fin n) :
    (faults i = none ∧ ∃ raw t',
      attempt (faults i) (deleteObjectScoped c bucket key) (disks i) = .ok () t' ∧
        Deleted c bucket key raw (disks i) t') ∨
    ∃ e, faults i = some e ∧
      attempt (faults i) (deleteObjectScoped c bucket key) (disks i) = .error e (disks i) := by
  cases hf : faults i with
  | some e => exact .inr ⟨e,rfl,rfl⟩
  | none =>
    obtain ⟨raw,hraw,-⟩ := readVersion_ok c bucket key _ versionId readData _ (h.reads i)
    obtain ⟨t',ht',hd⟩ := deleteObjectScoped_ok c bucket key (disks i) raw hraw
    exact .inl ⟨rfl,raw,t',ht',hd⟩

theorem failures_delete : List.ofFn (fun i => failureOf (value
    (attempt (faults i) (deleteObjectScoped c bucket key) (disks i)))) = List.ofFn faults := by
  congr 1
  funext i
  rcases delete_cases h faults i with ⟨hf,_,_,hr,_⟩ | ⟨e,hf,hr⟩
  · rw [hr, hf]
    rfl
  · rw [hr, hf]
    rfl

theorem probes_delete : probes c bucket key versionId readData (fun i => left
    (attempt (faults i) (deleteObjectScoped c bucket key) (disks i))) =
      diskResults n P fi (lostOn bucket key faults) := by
  rw [probes, diskResults, ← List.map_coe_finRange_eq_range, List.map_map, List.ofFn_eq_map]
  apply List.map_congr_left
  intro i _
  have hlost : lostOn bucket key faults i =
      match faults i with
      | none => some (.fileNotFound bucket key)
      | some _ => none := by
    rw [lostOn, dif_pos i.isLt]
  rw [Function.comp_apply, diskResult, hlost]
  rcases delete_cases h faults i with ⟨hf,raw,t',hr,hd⟩ | ⟨e,hf,hr⟩
  · rw [hr, hf]
    exact readVersion_deleted c bucket key (disks i) t' raw hd versionId readData
  · rw [hr, hf]
    exact h.reads i

theorem delete_eq_ok (lock : Except StorageError Unit) (s : Disks n) :
    delete c lock faults bucket key disks = .ok () s ↔ lock = .ok () ∧ 0 < deletedOn faults ∧
      s = fun i => left (attempt (faults i) (deleteObjectScoped c bucket key) (disks i)) := by
  cases lock with
  | error e => simp [delete]
  | ok u =>
    have hany : (List.ofFn faults).any Option.isNone = true ↔ 0 < deletedOn faults := by
      rw [deletedOn, List.countP_pos_iff, List.any_eq_true]
    simp only [delete, lift_eq_ok, failures_delete h faults, deleteOutcome]
    by_cases hd : 0 < deletedOn faults
    · simp [hany.mpr hd, hd, eq_comm]
    · rw [if_neg (fun ha => hd (hany.mp ha))]
      split <;> simp [hd]

theorem read_lost_iff {H : Type} [DecidableEq H] (o : HashOrders H) (blake3 : Bytes → H)
    (hn : 0 < n) :
    (∃ r, readWithConsensus o blake3 bucket key
      (diskResults n P fi (lostOn bucket key faults)) = .ok r) ↔
    deletedOn faults < half n ∧
      (if fi.deleted || fi.size = 0 then n-n/2 else n-P) ≤ n-deletedOn faults := by
  obtain ⟨e,hne,he⟩ := h.etag
  have hu := uniform_diskResults blake3 e hne he h.valid (lostOn bucket key faults)
  have hsum := alive_add_failures n (lostOn bucket key faults)
  rw [failures_lostOn, List.length_replicate] at hsum
  have hserved := served_isSome (diskResults n P fi (lostOn bucket key faults))
  rw [length_records_diskResults] at hserved
  simp only [hu.readWithConsensus_eq_ok o bucket key, exists_and_left, gated_lostOn,
    length_diskResults, length_records_diskResults, readQuorum_indexed h.valid hn, not_le]
  rw [show (alive n (lostOn bucket key faults)).length = n-deletedOn faults by omega] at *
  constructor
  · exact fun ⟨h1,h2,_⟩ => ⟨h1,h2⟩
  · rintro ⟨h1,h2⟩
    refine ⟨h1,h2,Option.isSome_iff_exists.mp (hserved.mpr ?_)⟩
    rw [half] at h1
    omega

end Present

/-- After a deletion that one disk carried out, the object is gone for readers
exactly when half of the set deleted it, or, for a striped object, more disks
than the parity. -/
theorem delete_hides_iff {H : Type} [DecidableEq H] (o : HashOrders H) (blake3 : Bytes → H)
    (c : MetaCodec) (lock : Except StorageError Unit) (faults : Fin n → Option IoError)
    (bucket key : String) (versionId : Option String) (readData : Bool) (P : ℕ) (fi : FileInfo)
    (disks : Disks n) (h : OnAllDisks c bucket key versionId readData P fi disks) :
    (∀ s, delete c lock faults bucket key disks = .ok () s →
      ∀ r, readVersioned o blake3 c bucket key versionId readData s ≠ .ok r) ↔
    lock ≠ .ok () ∨ deletedOn faults = 0 ∨ half n ≤ deletedOn faults ∨
      (fi.deleted = false ∧ fi.size ≠ 0 ∧ P < deletedOn faults) := by
  have hsum := alive_add_failures n (lostOn bucket key faults)
  rw [failures_lostOn, List.length_replicate] at hsum
  have hread := read_lost_iff h faults o blake3
  by_cases hok : lock = .ok () ∧ 0 < deletedOn faults
  · have hafter : (∀ s, delete c lock faults bucket key disks = .ok () s →
        ∀ r, readVersioned o blake3 c bucket key versionId readData s ≠ .ok r) ↔
        ¬∃ r, readWithConsensus o blake3 bucket key
          (diskResults n P fi (lostOn bucket key faults)) = .ok r := by
      simp only [delete_eq_ok h, hok, true_and, forall_eq, readVersioned, probes_delete h, ne_eq,
        not_exists]
    rw [hafter, hread (by omega)]
    have hhalf : half n = max (n/2) 1 := rfl
    by_cases hs : fi.deleted || fi.size = 0
    · rw [if_pos hs]
      have hempty : ¬(fi.deleted = false ∧ fi.size ≠ 0 ∧ P < deletedOn faults) := by
        rintro ⟨h1,h2,-⟩
        simp [h1, h2] at hs
      simp only [hok, ne_eq, not_true_eq_false, hempty, false_or, or_false]
      omega
    · rw [if_neg hs]
      rw [Bool.not_eq_true, Bool.or_eq_false_iff, decide_eq_false_iff_not] at hs
      simp only [hok, hs, ne_eq, not_true_eq_false, not_false_eq_true, true_and, false_or]
      omega
  · refine iff_of_true (fun s hs => ?_) ?_
    · obtain ⟨h1,h2,-⟩ := (delete_eq_ok h faults lock s).mp hs
      exact absurd ⟨h1,h2⟩ hok
    · by_cases hl : lock = .ok ()
      · exact .inr (.inl (by by_contra h0; exact hok ⟨hl,Nat.pos_of_ne_zero h0⟩))
      · exact .inl hl

end Set

/-- Only the first disk answers a deletion. -/
def timedOutTail (i : Fin 4) : Option IoError :=
  if i = 0 then none else some (.io .timedOut "operation timed out")

theorem quad_all_deleted : deletedOn (n := 4) (fun _ => none) = 4 ∧
    ∀ s, delete quadCodec (.ok ()) (fun _ => none) "b" "k" quadDisks = .ok () s →
      ∀ r, readVersioned smallOrders id quadCodec "b" "k" none true s ≠ .ok r :=
  ⟨rfl,(delete_hides_iff smallOrders id quadCodec (.ok ()) (fun _ => none) "b" "k" none true 2
    quadPut quadDisks quad_onAllDisks).mpr (.inr (.inr (.inl (by decide))))⟩

/-- A deletion that reaches one disk of four returns Ok, and the next read
returns the object. -/
theorem quad_still_read :
    OnAllDisks quadCodec "b" "k" none true 2 quadPut quadDisks ∧
    value (delete quadCodec (.ok ()) timedOutTail "b" "k" quadDisks) = .ok () ∧
    readVersioned smallOrders id quadCodec "b" "k" none true
      (left (delete quadCodec (.ok ()) timedOutTail "b" "k" quadDisks)) =
        .ok (1,indexed quadPut (setErasure 4 2) 1) :=
  ⟨quad_onAllDisks,by decide +kernel,by decide +kernel⟩

end Openlake.DeleteQuorum
