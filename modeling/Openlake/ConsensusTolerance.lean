import Openlake.ConsensusUniform
import Openlake.Records
import Openlake.XlMetaRoundTrip

/-!
# Reads with failed disks

A write that reached every disk of the set leaves at least the read quorum of
equal records when at most `P` disks fail. The error gate counts only failures: it
returns an error as soon as one kind of failure fills half of the set, whatever
the other disks hold.
-/

set_option autoImplicit false

namespace Openlake.ConsensusTolerance
open Openlake.Types Consensus ConsensusVerdict ConsensusUniform Records XlMeta XlMetaRoundTrip

def setErasure (n P : ℕ) : ErasureInfo :=
  defaultErasureInfo (UInt8.ofNat (n-P)) (UInt8.ofNat P) (UInt8.ofNat n)

structure PutRecord (n P : ℕ) (fi : FileInfo) : Prop where
  size : 0 < fi.size
  live : fi.deleted = false
  etag : ∃ e, e ≠ "" ∧ etagOf fi = some e
  stored : ∀ i < n, validateForEncode (indexed fi (setErasure n P) i) = .ok ()

def diskResult (n P : ℕ) (fi : FileInfo) (fails : ℕ → Option IoError) (i : ℕ) :
    Except IoError FileInfo :=
  match fails i with
  | some e => .error e
  | none => .ok (indexed fi (setErasure n P) i)

def diskResults (n P : ℕ) (fi : FileInfo) (fails : ℕ → Option IoError) : Results :=
  (List.range n).map (diskResult n P fi fails)

def failures (n : ℕ) (fails : ℕ → Option IoError) : List IoError := (List.range n).filterMap fails

def failureTags (n : ℕ) (fails : ℕ → Option IoError) : List ErrorTag :=
  ((failures n fails).filter (fun e => !livenessNoise e)).map errorTag

def alive (n : ℕ) (fails : ℕ → Option IoError) : List ℕ :=
  (List.range n).filter (fun i => fails i = none)

theorem length_diskResults (n P : ℕ) (fi : FileInfo) (fails : ℕ → Option IoError) :
    (diskResults n P fi fails).length = n := by
  simp [diskResults]

theorem errorBallots_diskResults (n P : ℕ) (fi : FileInfo) (fails : ℕ → Option IoError) :
    errorBallots (diskResults n P fi fails) = failureTags n fails := by
  rw [errorBallots, votingErrors, failureTags, failures, errsOf, diskResults, List.map_map,
    List.reduceOption, List.filterMap_map]
  congr 2
  apply List.filterMap_congr
  intro i _
  cases h : fails i <;> simp [diskResult, h]

theorem records_diskResults (n P : ℕ) (fi : FileInfo) (fails : ℕ → Option IoError) :
    records (diskResults n P fi fails) = (alive n fails).map (indexed fi (setErasure n P)) := by
  rw [records, metasOf, diskResults, List.map_map, List.reduceOption, List.filterMap_map, alive]
  induction List.range n with
  | nil => rfl
  | cons i is ih =>
    rw [List.filterMap_cons, List.filter_cons, ih]
    cases h : fails i <;> simp [diskResult, Except.toOption, h]

theorem alive_add_failures (n : ℕ) (fails : ℕ → Option IoError) :
    (alive n fails).length+(failures n fails).length = n := by
  suffices h : ∀ l : List ℕ, (l.filter (fun i => fails i = none)).length+
      (l.filterMap fails).length = l.length by
    simpa [alive, failures] using h (List.range n)
  intro l
  induction l with
  | nil => rfl
  | cons i is ih =>
    rw [List.filterMap_cons, List.filter_cons]
    cases h : fails i <;> simp [← ih] <;> omega

section Layout

variable {n P : ℕ} {fi : FileInfo}

theorem layout_bounds (hvalid : ∀ i < n, erasureIsValid (indexed fi (setErasure n P) i).erasure)
    (hn : 0 < n) :
    n ≤ 255 ∧ P ≤ n-P := by
  have hn255 : n ≤ 255 := by
    by_contra h
    have := hvalid 255 (by omega)
    simp [erasureIsValid, indexed] at this
  have h0 := hvalid 0 hn
  simp only [erasureIsValid, Bool.and_eq_true, decide_eq_true_eq] at h0
  have hd : UInt8.ofNat (n-P) ≠ 0 := h0.1.1.1.1
  have hp : UInt8.ofNat P ≤ UInt8.ofNat (n-P) := h0.1.1.1.2
  have hdata : (UInt8.ofNat (n-P)).toNat = n-P := UInt8.toNat_ofNat_of_lt' (show n-P < 256 by omega)
  have hP : P < n := by
    by_contra h
    exact hd (by rw [show n-P = 0 by omega]; rfl)
  rw [UInt8.le_iff_toNat_le, hdata, UInt8.toNat_ofNat_of_lt' (show P < 256 by omega)] at hp
  exact ⟨hn255,hp⟩

theorem PutRecord.valid (hput : PutRecord n P fi) (i : ℕ) (hi : i < n) :
    erasureIsValid (indexed fi (setErasure n P) i).erasure := by
  obtain ⟨-,h2,h3,h4,h5,h6,-⟩ := (validateForEncode_encodable _ (hput.stored i hi)).erasure
  simp [erasureIsValid, h2, h3, h4, h5, h6]

variable (fails : ℕ → Option IoError)

theorem mem_diskResults (r : FileInfo)
    (h : .ok r ∈ diskResults n P fi fails) :
    ∃ i < n, fails i = none ∧ r = indexed fi (setErasure n P) i := by
  obtain ⟨i,hi,hr⟩ := List.mem_map.mp h
  refine ⟨i,List.mem_range.mp hi,?_⟩
  cases hf : fails i with
  | none =>
    rw [diskResult, hf] at hr
    exact ⟨rfl,(Except.ok.inj hr).symm⟩
  | some e =>
    rw [diskResult, hf] at hr
    cases hr

theorem uniform_diskResults {H : Type} (blake3 : Bytes → H) (e : String) (hne : e ≠ "")
    (he : etagOf fi = some e)
    (hvalid : ∀ i < n, erasureIsValid (indexed fi (setErasure n P) i).erasure)
    (fails : ℕ → Option IoError) :
    Uniform blake3 (diskResults n P fi fails) (parityVote n (indexed fi (setErasure n P) 0)) e
      (decodeContractHash blake3 (indexed fi (setErasure n P) 0)) where
  etag_ne := hne
  valid r hr := by
    obtain ⟨i,hi,-,rfl⟩ := mem_diskResults fails r hr
    exact hvalid i hi
  parity r hr := by
    obtain ⟨i,-,-,rfl⟩ := mem_diskResults fails r hr
    rw [length_diskResults]
    rfl
  etag r hr := by
    obtain ⟨i,-,-,rfl⟩ := mem_diskResults fails r hr
    exact he
  contract r hr := by
    obtain ⟨i,-,-,rfl⟩ := mem_diskResults fails r hr
    rfl

theorem served_diskResults (r : ℕ × FileInfo)
    (h : served (diskResults n P fi fails) = some r) :
    r.1 < n ∧ fails r.1 = none ∧ r = (r.1,indexed fi (setErasure n P) r.1) := by
  obtain ⟨i,fi'⟩ := r
  have hi := served_mem _ i fi' h
  rw [diskResults, List.getElem?_map, Option.map_eq_some_iff] at hi
  obtain ⟨j,hj,hr⟩ := hi
  obtain ⟨hin,hij⟩ := List.getElem?_eq_some_iff.mp hj
  rw [List.getElem_range] at hij
  subst hij
  refine ⟨by simpa using hin,?_⟩
  cases hf : fails i with
  | none =>
    rw [diskResult, hf] at hr
    exact ⟨rfl,by rw [Except.ok.inj hr]⟩
  | some err => rw [diskResult, hf] at hr; cases hr

theorem readQuorum_indexed
    (hvalid : ∀ i < n, erasureIsValid (indexed fi (setErasure n P) i).erasure) (hn : 0 < n) :
    readQuorum n (parityVote n (indexed fi (setErasure n P) 0)) =
      if fi.deleted || fi.size = 0 then n-n/2 else n-P := by
  obtain ⟨h255,hP⟩ := layout_bounds hvalid hn
  have hp : (UInt8.ofNat P).toNat = P := UInt8.toNat_ofNat_of_lt' (show P < 256 by omega)
  have hh : (UInt8.ofNat (n/2)).toNat = n/2 := UInt8.toNat_ofNat_of_lt' (show n/2 < 256 by omega)
  rw [show parityVote n (indexed fi (setErasure n P) 0) =
    if fi.deleted || fi.size = 0 then UInt8.ofNat (n/2) else UInt8.ofNat P from rfl]
  split_ifs
  · rw [readQuorum, hh, if_pos (by omega)]
  · rw [readQuorum, hp, if_pos (by omega)]

theorem length_records_diskResults :
    (records (diskResults n P fi fails)).length = (alive n fails).length := by
  rw [records_diskResults, List.length_map]

end Layout

/-- With at most `P` failed disks, a record stored on the whole set is read
back exactly when no kind of failure reaches half of the set. -/
theorem read_tolerates_iff {H : Type} [DecidableEq H] (o : HashOrders H) (blake3 : Bytes → H)
    (bucket key : String) (n P : ℕ) (fi : FileInfo) (fails : ℕ → Option IoError) (hP : 1 ≤ P)
    (hPn : P ≤ n/2) (hput : PutRecord n P fi) (hfail : (failures n fails).length ≤ P) :
    (∃ i, i < n ∧ fails i = none ∧
      readWithConsensus o blake3 bucket key (diskResults n P fi fails) =
        .ok (i,indexed fi (setErasure n P) i)) ↔
    ∀ t, (failureTags n fails).count t < half n := by
  obtain ⟨e,hne,he⟩ := hput.etag
  have hsum := alive_add_failures n fails
  have hu := uniform_diskResults blake3 e hne he hput.valid fails
  have hread := hu.readWithConsensus_eq_ok o bucket key
  have hgate : Gated (diskResults n P fi fails) ↔ ¬∀ t, (failureTags n fails).count t < half n := by
    rw [Gated, errorBallots_diskResults, length_diskResults]
    simp
  have hquorum : readQuorum n (parityVote n (indexed fi (setErasure n P) 0)) = n-P := by
    have hsize : fi.size ≠ 0 := by
      intro h
      exact absurd (h ▸ hput.size) (by decide)
    rw [readQuorum_indexed hput.valid (by omega), if_neg (by simp [hput.live, hsize])]
  rw [length_diskResults, length_records_diskResults, hquorum] at hread
  constructor
  · rintro ⟨i,-,-,h⟩
    exact not_not.mp (fun hg => ((hread _).mp h).1 (hgate.mpr hg))
  · intro h
    obtain ⟨r,hr⟩ := Option.isSome_iff_exists.mp ((served_isSome (diskResults n P fi fails)).mpr
      (by rw [length_records_diskResults]; omega))
    obtain ⟨hin,hf,heq⟩ := served_diskResults fails r hr
    exact ⟨r.1,hin,hf,by rw [← heq]; exact (hread r).mpr ⟨fun hg => hgate.mp hg h,by omega,hr⟩⟩

def smallPut : FileInfo :=
  buildFileInfo "photos" "a.bin" 1 "0cc175b9c0f1b6a831c399e269772661" 1 none (some [[97]])
    (singlePartInfo "0cc175b9c0f1b6a831c399e269772661" 1 1 1)

def smallDigest (input : Bytes) : Bytes :=
  if input = decodeContract (indexed smallPut (setErasure 3 1) 0) then
    [211,179,59,188,108,195,212,57,255,45,207,200,126,5,9,175,6,131,18,249,169,129,233,47,39,
      44,27,180,19,217,11,188]
  else []

theorem smallPut_stored : PutRecord 3 1 smallPut where
  size := by decide
  live := rfl
  etag := ⟨"0cc175b9c0f1b6a831c399e269772661",by decide,by decide⟩
  stored := by decide

def smallOrders : HashOrders Bytes :=
  ⟨.insertion _,.insertion _,.insertion _,.insertion _⟩

def refusedDisk (i : ℕ) : Option IoError :=
  if i = 2 then some (.io .connectionRefused "connection refused") else none

theorem smallPut_read_refused : ∃ i, i < 3 ∧ refusedDisk i = none ∧
    readWithConsensus smallOrders smallDigest "photos" "a.bin"
      (diskResults 3 1 smallPut refusedDisk) = .ok (i,indexed smallPut (setErasure 3 1) i) :=
  (read_tolerates_iff smallOrders smallDigest "photos" "a.bin" 3 1 smallPut refusedDisk (by decide)
    (by decide) smallPut_stored (by decide)).mpr (by
      intro t
      rw [show failureTags 3 refusedDisk = [] by decide, List.count_nil]
      decide)

def replacedDisk (i : ℕ) : Option IoError :=
  if i = 2 then some (.fileNotFound "photos" "a.bin") else none

/-- One replaced disk of three, with parity one, hides an object that the
other two disks hold. -/
theorem smallPut_hidden : PutRecord 3 1 smallPut ∧ (failures 3 replacedDisk).length ≤ 1 ∧
    readWithConsensus smallOrders smallDigest "photos" "a.bin"
      (diskResults 3 1 smallPut replacedDisk) = .error (.objectNotFound "photos" "a.bin") :=
  ⟨smallPut_stored,by decide,by decide⟩

end Openlake.ConsensusTolerance
