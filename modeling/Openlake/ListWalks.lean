import Openlake.ListPages
import Openlake.XlMetaRewrite

/-!
# Listings from what the disks answer

A listing sees a disk only through its walks, which may fail. A set with too
few walks that succeed reports no keys and no error, so its keys are missing
from a listing that succeeds.
-/

set_option autoImplicit false

namespace Openlake.ListWalks
open Openlake.Types XlMeta LocalFs GetObject Listing ListPages Lib.Merge Lib.Effects

abbrev Walker := WalkOptions → Except IoError Listing

def diskWalker (c : MetaCodec) (bucket : String) (t : Disk) : Walker := fun o =>
  value (walkDir c bucket o "" t)

section List

variable (o : VoteOrder) (bucket prefixFilter : String) (startAfter : Option String)

def listOneSetFrom (cap : Option ℕ) (disks : List Walker) :
    Except StorageError (List ObjectInfo) :=
  if disks = [] then .ok []
  else
    let streams := disks.filterMap (fun d => (d (walkOptions prefixFilter startAfter cap)).toOption)
    let quorum := (disks.length+1)/2
    if streams.length < quorum then .ok [] else .ok (mergeWithinSet o streams quorum bucket)

def perSetCap (maxKeys : ℕ) : Option ℕ := if maxKeys = 0 then none else some (maxKeys+1)

def truncate (maxKeys : ℕ) (merged : List ObjectInfo) : List ObjectInfo :=
  if maxKeys = 0 then merged else merged.take (maxKeys+1)

def listFrom (maxKeys : ℕ) (sets : List (List Walker)) : Except StorageError (List ObjectInfo) :=
  if sets = [] then .ok []
  else do
    let setsOk ← sets.mapM (listOneSetFrom o bucket prefixFilter startAfter (perSetCap maxKeys))
    return truncate maxKeys (mergeAcrossSets setsOk)

/-- What a set reports: nothing, where too few of its walks succeed. -/
def reports (cap : Option ℕ) (disks : List Walker) : List ObjectInfo :=
  let streams := disks.filterMap (fun d => (d (walkOptions prefixFilter startAfter cap)).toOption)
  if streams.length < (disks.length+1)/2 then []
  else mergeWithinSet o streams ((disks.length+1)/2) bucket

theorem listOneSetFrom_eq (cap : Option ℕ) (disks : List Walker) :
    listOneSetFrom o bucket prefixFilter startAfter cap disks =
      .ok (reports o bucket prefixFilter startAfter cap disks) := by
  by_cases hnil : disks = []
  · subst hnil
    rfl
  · simp only [listOneSetFrom, reports, if_neg hnil]
    split_ifs <;> rfl

theorem truncate_nil (maxKeys : ℕ) : truncate maxKeys [] = [] := by
  rw [truncate]
  split_ifs <;> rfl

theorem listFrom_eq (maxKeys : ℕ) (sets : List (List Walker)) :
    listFrom o bucket prefixFilter startAfter maxKeys sets =
      .ok (truncate maxKeys (mergeAcrossSets
        (sets.map (reports o bucket prefixFilter startAfter (perSetCap maxKeys))))) := by
  by_cases hnil : sets = []
  · subst hnil
    exact congrArg Except.ok (truncate_nil maxKeys).symm
  · have hall : sets.mapM (listOneSetFrom o bucket prefixFilter startAfter (perSetCap maxKeys)) =
        .ok (sets.map (reports o bucket prefixFilter startAfter (perSetCap maxKeys))) := by
      rw [funext (listOneSetFrom_eq o bucket prefixFilter startAfter (perSetCap maxKeys))]
      exact List.mapM_pure
    rw [listFrom, if_neg hnil, hall]
    rfl

theorem listOneSet_eq (c : MetaCodec) (cap : Option ℕ) (disks : List Disk) :
    listOneSet c o bucket prefixFilter startAfter cap disks =
      reports o bucket prefixFilter startAfter cap (disks.map (diskWalker c bucket)) := by
  by_cases hnil : disks = []
  · rw [listOneSet, if_pos hnil]
    subst hnil
    simp [reports, mergeWithinSet, merge, size, rounds]
  · simp only [listOneSet, reports, if_neg hnil, List.filterMap_map, List.length_map]
    rfl

theorem listFrom_disks (c : MetaCodec) (maxKeys : ℕ) (sets : List (List Disk)) :
    listFrom o bucket prefixFilter startAfter maxKeys (sets.map (List.map (diskWalker c bucket))) =
      .ok (list c o bucket prefixFilter startAfter maxKeys sets) := by
  rw [listFrom_eq, list, List.map_map]
  by_cases hnil : sets = []
  · subst hnil
    exact congrArg Except.ok (truncate_nil maxKeys)
  · simp only [if_neg hnil, funext (listOneSet_eq o bucket prefixFilter startAfter c _)]
    rfl

end List

section Failures

variable {S : ℕ} (K : Finset String) (place : String → Fin S) (record : String → FileInfo)
  (fails : Fin S → List (Option IoError))

/-- The keys of a set that start with the filter, with their records. -/
def storedIn (i : Fin S) (pre : String) : Listing :=
  (matching (K.filter (fun k => place k = i)) pre).map (fun k => (k,record k))

/-- A disk whose walk fails, or returns every key of the set it belongs to. -/
def walkerOf (i : Fin S) (failure : Option IoError) : Walker := fun opts =>
  match failure with
  | some e => .error e
  | none => .ok (storedIn K place record i opts.prefixFilter)

def cluster : List (List Walker) :=
  List.ofFn (fun i => (fails i).map (walkerOf K place record i))

def answering (i : Fin S) : ℕ := (fails i).countP Option.isNone

theorem streams_walkers (i : Fin S) (opts : WalkOptions) (failures : List (Option IoError)) :
    (failures.map (walkerOf K place record i)).filterMap (fun d => (d opts).toOption) =
      List.replicate (failures.countP Option.isNone)
        (storedIn K place record i opts.prefixFilter) := by
  induction failures with
  | nil => rfl
  | cons f failures ih =>
    cases f with
    | none =>
      have hwalk : (walkerOf K place record i none opts).toOption =
          some (storedIn K place record i opts.prefixFilter) := rfl
      simp only [List.map_cons, List.filterMap_cons, hwalk, ih]
      rw [List.countP_cons_of_pos rfl, List.replicate_succ]
    | some e =>
      have hwalk : (walkerOf K place record i (some e) opts).toOption = none := rfl
      simp only [List.map_cons, List.filterMap_cons, hwalk, ih]
      rw [List.countP_cons_of_neg (by simp)]

variable (o : VoteOrder) (bucket pre : String)
  (hlive : ∀ k ∈ K, (record k).deleted = false ∧ (record k).name = k)

include hlive

/-- A set reports all its keys when one and half of its walks succeed, and none
otherwise. -/
theorem keys_reports (i : Fin S) (k : String) :
    k ∈ (reports o bucket pre none none ((fails i).map (walkerOf K place record i))).map
        ObjectInfo.key ↔
      (0 < answering fails i ∧ (fails i).length ≤ 2*answering fails i) ∧ k ∈ K ∧ place k = i ∧
        startsWith k pre = true := by
  rw [reports, streams_walkers, List.length_replicate, List.length_map]
  change k ∈ List.map _ (if answering fails i < _ then _ else _) ↔ _
  split_ifs with hfew
  · constructor
    · intro h
      cases h
    · rintro ⟨⟨-,h⟩,-⟩
      omega
  · by_cases hnone : answering fails i = 0
    · rw [show (fails i).countP Option.isNone = 0 from hnone]
      constructor
      · intro h
        cases h
      · rintro ⟨⟨h,-⟩,-⟩
        omega
    · rw [keys_mergeWithinSet o bucket _ _
        (matching (K.filter (fun k => place k = i)) pre) (fun k => signature (record k))]
      · rw [mem_matching, Finset.mem_filter]
        constructor
        · rintro ⟨⟨hk,hi⟩,hpre⟩
          exact ⟨⟨by omega,by omega⟩,hk,hi,hpre⟩
        · rintro ⟨-,hk,hi,hpre⟩
          exact ⟨⟨hk,hi⟩,hpre⟩
      · rw [Ne, List.replicate_eq_nil_iff]
        exact hnone
      · rw [List.length_replicate]
        exact Nat.le_of_not_lt hfew
      · intro s hs
        obtain rfl := List.eq_of_mem_replicate hs
        refine ⟨by simp [storedIn, walkOptions, Function.comp_def],fun e he => ?_⟩
        obtain ⟨k',hk',rfl⟩ := List.mem_map.mp he
        have hK := (Finset.mem_filter.mp ((mem_matching _ _ k').mp hk').1).1
        exact ⟨rfl,hlive k' hK⟩

/-- Every key is listed, or the listing fails, exactly when in every set with a
key to list one disk and half of the disks answer. -/
theorem list_complete_iff :
    (∀ infos, listFrom o bucket pre none 0 (cluster K place record fails) = .ok infos →
      ∀ k ∈ K, startsWith k pre = true → k ∈ infos.map ObjectInfo.key) ↔
    ∀ k ∈ K, startsWith k pre = true →
      0 < answering fails (place k) ∧ (fails (place k)).length ≤ 2*answering fails (place k) := by
  have hlist : listFrom o bucket pre none 0 (cluster K place record fails) =
      .ok (mergeAcrossSets ((cluster K place record fails).map (reports o bucket pre none none))) :=
    listFrom_eq o bucket pre none 0 _
  have hmem : ∀ k, k ∈ (mergeAcrossSets ((cluster K place record fails).map
      (reports o bucket pre none none))).map ObjectInfo.key ↔
      (0 < answering fails (place k) ∧ (fails (place k)).length ≤ 2*answering fails (place k)) ∧
        k ∈ K ∧ startsWith k pre = true := by
    intro k
    rw [mem_keys_mergeAcrossSets]
    simp only [cluster, List.map_ofFn, List.mem_ofFn, Function.comp_apply, exists_exists_eq_and,
      keys_reports K place record fails o bucket pre hlive]
    constructor
    · rintro ⟨i,hans,hk,rfl,hpre⟩
      exact ⟨hans,hk,hpre⟩
    · rintro ⟨hans,hk,hpre⟩
      exact ⟨place k,hans,hk,rfl,hpre⟩
  rw [hlist]
  constructor
  · intro hall k hk hpre
    exact ((hmem k).mp (hall _ rfl k hk hpre)).1
  · intro hans infos hinfos k hk hpre
    obtain rfl := Except.ok.inj hinfos
    exact (hmem k).mpr ⟨hans k hk hpre,hk,hpre⟩

end Failures

def oneKey (k : String) : FileInfo :=
  { volume := "b", name := k, versionId := "null", modTimeMs := 1, size := 1 }

def refused : IoError := .io .connectionRefused "connection refused"

theorem one_of_three_refused : listFrom (.insertion _) "b" "" none 0
    (cluster {"k"} (fun _ => (0 : Fin 1)) oneKey (fun _ => [some refused,none,none])) ≠ .ok [] ∧
    answering (fun _ : Fin 1 => [some refused,none,none]) 0 = 2 := by
  refine ⟨fun h => ?_,rfl⟩
  have hmem := (list_complete_iff {"k"} (fun _ => (0 : Fin 1)) oneKey
    (fun _ => [some refused,none,none]) (.insertion _) "b" "" (fun _ _ => ⟨rfl,rfl⟩)).mpr
      (fun _ _ _ => ⟨by decide,by decide⟩) [] h "k" (by simp) (by decide +kernel)
  cases hmem

/-- Two of three walks fail, and the listing succeeds without the key. -/
theorem two_of_three_refused : listFrom (.insertion _) "b" "" none 0
    (cluster {"k"} (fun _ => (0 : Fin 1)) oneKey (fun _ => [some refused,some refused,none])) =
      .ok [] ∧ "k" ∈ ({"k"} : Finset String) ∧ startsWith "k" "" = true := by
  refine ⟨?_,by simp,by decide +kernel⟩
  rw [listFrom_eq]
  decide +kernel

end Openlake.ListWalks
