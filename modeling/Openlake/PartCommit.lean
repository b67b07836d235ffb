import Openlake.PartFiles

/-!
# What an upload of a part leaves on the disks

An attempt changes the entries of its own part and nothing else in the session,
and it changes them only in its last steps, under the lock. `Placed` says what
the entries are then, call by call, whether the attempt succeeds or not.
-/

set_option autoImplicit false

namespace Openlake.PartCommit
open Openlake.Types LocalFs Promote Ops Multipart PartFiles Lib.FileTree Lib.Effects Lib.FanOut

variable {n : ℕ}

theorem requireQuorum_all {α : Type} (results : Fin n → Except IoError α) :
    requireQuorum (List.ofFn results) n (fun _ => false) = .ok () ↔
      ∀ i, failureOf (results i) = none := by
  have hlen := List.length_filterMap_le failureOf (List.ofFn results)
  rw [List.length_ofFn] at hlen
  have hnil : (List.ofFn results).filterMap failureOf = [] ↔ ∀ i, failureOf (results i) = none := by
    simp [List.filterMap_eq_nil_iff]
  rw [← hnil, ← List.length_eq_zero_iff]
  simp only [requireQuorum, Bool.not_false, List.filter_true, List.length_ofFn]
  split_ifs with hq
  · simp only [true_iff]
    omega
  · simp only [false_iff]
    omega

theorem run_quorumOf {α : Type} (bucket : String) (results : Fin n → Except IoError α)
    (disks : Disks n) :
    ((∀ i, failureOf (results i) = none) → (quorumOf bucket results).run disks = .ok () disks) ∧
    ((¬∀ i, failureOf (results i) = none) →
      ∃ e, (quorumOf bucket results).run disks = .error e disks) := by
  rw [← requireQuorum_all]
  constructor
  · intro h
    rw [quorumOf, h]
    rfl
  · intro h
    rw [quorumOf]
    cases hr : requireQuorum (List.ofFn results) n (fun _ => false) with
    | ok u => exact absurd hr h
    | error e => exact ⟨_,rfl⟩

section Place

variable (bucket session dataDir : String) (u : PartUpload n) (sidecar : Bytes)

/-- The entries of a part on a disk after its commit. `made` says that every
disk made the directory. -/
structure Placed (made : Prop) [Decidable made] (i : Fin n) (shard : Bytes) (t s : Disk) : Prop where
  room : Roomy (partsDir session dataDir) s
  partEntry : look s (partsDir session dataDir ++ [partName u.partNumber]) =
    if made ∧ u.faults.renamePart i = none then some (.file shard)
    else if u.faults.deletePart i = none then none
    else look t (partsDir session dataDir ++ [partName u.partNumber])
  metaEntry : look s (partsDir session dataDir ++ [metaName u.partNumber]) =
    if made ∧ u.faults.renamePart i = none ∧ u.faults.writeMeta i = none
    then some (.file sidecar)
    else if u.faults.deleteMeta i = none then none
    else look t (partsDir session dataDir ++ [metaName u.partNumber])
  other : ∀ q, ¬q <+: partsDir session dataDir →
    q ≠ partsDir session dataDir ++ [partName u.partNumber] →
    q ≠ partsDir session dataDir ++ [metaName u.partNumber] →
    q ≠ stagingDir u.stagingId ++ [partName u.partNumber] → look s q = look t q

def clearTask (i : Fin n) : Task Disk Unit :=
  Task.before (attempt (u.faults.deletePart i)
      (delete multipartVol (finalPart session dataDir u.partNumber) false))
    (Task.before (attempt (u.faults.deleteMeta i)
      (delete multipartVol (finalMeta session dataDir u.partNumber) false)) (.done ()))

def placeTask (i : Fin n) : Task Disk (Except IoError Unit) :=
  Task.askThen (attempt (u.faults.renamePart i) (renameFile stagingVol u.tmpPath multipartVol
      (finalPart session dataDir u.partNumber)))
    (fun _ => Task.ask (attempt (u.faults.writeMeta i)
      (writeFile multipartVol (finalMeta session dataDir u.partNumber) sidecar)))

def prepared (i : Fin n) (t : Disk) : EStateM.Result IoError Disk Unit :=
  attempt (u.faults.makeDir i) (makeDirAll multipartVol (session ++ "/" ++ dataDir))
    ((clearTask session dataDir u i).run t).2

theorem run_placePart (disks : Disks n) : (placePart bucket u session dataDir sidecar).run disks =
    ((quorumOf bucket (fun i => value (prepared session dataDir u i (disks i)))).run >>= fun _ =>
      (Prog.ask (placeTask session dataDir u sidecar) >>= quorumOf bucket).run)
      (fun i => left (prepared session dataDir u i (disks i))) := by
  rw [placePart, Prog.run_bind, bind_of_ok (run_sweep _ disks), Prog.run_bind,
    bind_of_ok (run_onDisks _ _ _), Prog.run_bind]
  rfl

variable {session dataDir u} (hdd : FileName dataDir) (hid : FileName u.stagingId) {t : Disk}
  (hroom : Roomy (partsDir session dataDir) t)

theorem partName_ne (a b : UInt32) : (partName a = metaName b) = False :=
  eq_false (partName_ne_metaName a b)

theorem metaName_ne (a b : UInt32) : (metaName a = partName b) = False :=
  eq_false (partName_ne_metaName b a).symm

theorem stagingDir_ne (id : String) : (stagingDir id = partsDir session dataDir) = False := by
  simp [stagingDir, partsDir, filePath, stagingVol, multipartVol]

theorem partsDir_ne (id : String) : (partsDir session dataDir = stagingDir id) = False := by
  simp [stagingDir, partsDir, filePath, stagingVol, multipartVol]

include hdd hroom

theorem run_clearTask (i : Fin n) :
    Leaves (partsDir session dataDir) ((clearTask session dataDir u i).run t).2 (fun q =>
      if q = partsDir session dataDir ++ [partName u.partNumber] ∧ u.faults.deletePart i = none
      then none
      else if q = partsDir session dataDir ++ [metaName u.partNumber] ∧
        u.faults.deleteMeta i = none then none
      else look t q) := by
  obtain ⟨r1,l1⟩ := delete_entry hroom (u.faults.deletePart i) _ _
    (filePath_part session dataDir hdd u.partNumber) (hroom.part _)
  obtain ⟨r2,l2⟩ := delete_entry r1 (u.faults.deleteMeta i) _ _
    (filePath_meta session dataDir hdd u.partNumber) (r1.sidecar _)
  refine ⟨r2,fun q hq => ?_⟩
  show look (left (attempt _ _ (left (attempt _ _ t)))) q = _
  rw [l2 q hq, l1 q hq]
  by_cases hp : q = partsDir session dataDir ++ [partName u.partNumber]
  · subst hp
    simp [partName_ne]
  · simp [hp]

theorem run_prepared (i : Fin n) :
    Leaves (partsDir session dataDir) (left (prepared session dataDir u i t)) (fun q =>
      if q = partsDir session dataDir ++ [partName u.partNumber] ∧ u.faults.deletePart i = none
      then none
      else if q = partsDir session dataDir ++ [metaName u.partNumber] ∧
        u.faults.deleteMeta i = none then none
      else look t q) ∧
    failureOf (value (prepared session dataDir u i t)) = u.faults.makeDir i := by
  obtain ⟨r1,l1⟩ := run_clearTask hdd hroom i
  obtain ⟨⟨r2,l2⟩,v2⟩ := make_dir hdd r1 (u.faults.makeDir i) rfl
  exact ⟨⟨r2,fun q hq => (l2 q hq).trans (l1 q hq)⟩,v2⟩

include hid

section Task

variable (i : Fin n) (shard : Bytes)
  (htmp : look t (stagingDir u.stagingId ++ [partName u.partNumber]) = some (.file shard))

include htmp

theorem run_placeTask {r : Except IoError Unit × Disk}
    (hr : (placeTask session dataDir u sidecar i).run t = r) :
    Leaves (partsDir session dataDir) r.2 (fun q =>
      if q = partsDir session dataDir ++ [partName u.partNumber] ∧ u.faults.renamePart i = none
      then some (.file shard)
      else if q = partsDir session dataDir ++ [metaName u.partNumber] ∧
        u.faults.renamePart i = none ∧ u.faults.writeMeta i = none then some (.file sidecar)
      else if q = stagingDir u.stagingId ++ [partName u.partNumber] ∧
        u.faults.renamePart i = none then none
      else look t q) ∧
    (failureOf r.1 = none ↔ u.faults.renamePart i = none ∧ u.faults.writeMeta i = none) := by
  generalize hmoved : attempt (u.faults.renamePart i) (renameFile stagingVol u.tmpPath multipartVol
    (finalPart session dataDir u.partNumber)) t = moved
  generalize hwritten : attempt (u.faults.writeMeta i) (writeFile multipartVol
    (finalMeta session dataDir u.partNumber) sidecar) (left moved) = written
  obtain ⟨⟨r1,l1⟩,v1⟩ := rename_part hdd hroom (u.faults.renamePart i) u hid shard htmp hmoved
  obtain ⟨⟨r2,l2⟩,v2⟩ := write_sidecar hdd r1 (u.faults.writeMeta i) u.partNumber sidecar hwritten
  rw [placeTask, Task.askThen, Task.run, hmoved] at hr
  cases hval : value moved with
  | error e =>
    rw [hval] at hr v1
    obtain rfl : (.error e,left moved) = r := hr
    have hf : u.faults.renamePart i = some e := v1.symm
    exact ⟨⟨r1,fun q hq => by rw [l1 q hq]; simp [hf]⟩,by simp [failureOf, hf]⟩
  | ok a =>
    rw [hval] at hr v1
    have hf : u.faults.renamePart i = none := v1.symm
    obtain rfl : (value written,left written) = r := by
      rw [← hwritten]
      exact hr
    refine ⟨⟨r2,fun q hq => ?_⟩,by rw [v2]; simp [hf]⟩
    rw [l2 q hq, l1 q hq]
    by_cases hp : q = partsDir session dataDir ++ [partName u.partNumber]
    · subst hp
      simp [hf, partName_ne]
    · simp [hf, hp]

theorem run_placed (made : Prop) [Decidable made] (s : Disk)
    (hs : s = if made then
        ((placeTask session dataDir u sidecar i).run (left (prepared session dataDir u i t))).2
      else left (prepared session dataDir u i t)) :
    Placed session dataDir u sidecar made i shard t s ∧
    (failureOf ((placeTask session dataDir u sidecar i).run
        (left (prepared session dataDir u i t))).1 = none ↔
      u.faults.renamePart i = none ∧ u.faults.writeMeta i = none) := by
  obtain ⟨⟨r1,l1⟩,-⟩ := run_prepared (u := u) hdd hroom i
  have hway : ¬stagingDir u.stagingId ++ [partName u.partNumber] <+: partsDir session dataDir := by
    simp [stagingDir, partsDir, filePath, stagingVol, multipartVol]
  obtain ⟨⟨r2,l2⟩,v2⟩ := run_placeTask sidecar hdd hid r1 i shard
    (by rw [l1 _ hway]; simp [stagingDir_ne, htmp]) rfl
  refine ⟨?_,v2⟩
  by_cases hm : made
  · rw [if_pos hm] at hs
    subst hs
    constructor
    case room => exact r2
    case partEntry =>
      rw [l2 _ (not_prefix_dir _ _), l1 _ (not_prefix_dir _ _)]
      simp [hm, partName_ne, partsDir_ne]
    case metaEntry =>
      rw [l2 _ (not_prefix_dir _ _), l1 _ (not_prefix_dir _ _)]
      simp [hm, metaName_ne, partsDir_ne]
    case other =>
      intro q hq h1 h2 h3
      rw [l2 _ hq, l1 _ hq]
      simp [h1, h2, h3]
  · rw [if_neg hm] at hs
    subst hs
    constructor
    case room => exact r1
    case partEntry =>
      rw [l1 _ (not_prefix_dir _ _)]
      simp [hm, partName_ne]
    case metaEntry =>
      rw [l1 _ (not_prefix_dir _ _)]
      simp [hm, metaName_ne]
    case other =>
      intro q hq h1 h2 h3
      rw [l1 _ hq]
      simp [h1, h2]

end Task

omit hroom in
/-- Putting a part in place, on every disk. It succeeds if no call but a delete
fails. -/
theorem placePart_placed (disks : Disks n)
    (hroom : ∀ i, Roomy (partsDir session dataDir) (disks i)) (shard : Fin n → Bytes)
    (htmp : ∀ i, look (disks i) (stagingDir u.stagingId ++ [partName u.partNumber]) =
      some (.file (shard i))) :
    (∀ i, Placed session dataDir u sidecar (∀ j, u.faults.makeDir j = none) i (shard i) (disks i)
      (left ((placePart bucket u session dataDir sidecar).run disks) i)) ∧
    (value ((placePart bucket u session dataDir sidecar).run disks) = .ok () ↔
      (∀ j, u.faults.makeDir j = none) ∧
        ∀ j, u.faults.renamePart j = none ∧ u.faults.writeMeta j = none) := by
  have hplace := fun i => run_placed sidecar hdd hid (hroom i) i (shard i) (htmp i)
    (∀ j, u.faults.makeDir j = none) _ rfl
  have hmade : (∀ i, failureOf (value (prepared session dataDir u i (disks i))) = none) ↔ ∀ j, u.faults.makeDir j = none :=
    forall_congr' fun i => by rw [(run_prepared hdd (hroom i) i).2]
  have hplaced := forall_congr' fun i => (hplace i).2
  rw [run_placePart]
  by_cases hall : ∀ j, u.faults.makeDir j = none
  · simp only [if_pos hall] at hplace
    rw [bind_of_ok ((run_quorumOf bucket _ _).1 (hmade.mpr hall)), Prog.run_bind,
      bind_of_ok (Prog.run_ask _ _)]
    by_cases hok : ∀ j, u.faults.renamePart j = none ∧ u.faults.writeMeta j = none
    · rw [(run_quorumOf bucket _ _).1 (hplaced.mpr hok)]
      exact ⟨fun i => (hplace i).1,iff_of_true rfl ⟨hall,hok⟩⟩
    · obtain ⟨e,he⟩ := (run_quorumOf bucket _ (fun i => ((placeTask session dataDir u sidecar i).run
        (left (prepared session dataDir u i (disks i)))).2)).2 (fun h => hok (hplaced.mp h))
      rw [he]
      exact ⟨fun i => (hplace i).1,iff_of_false (by simp [value]) (fun h => hok h.2)⟩
  · simp only [if_neg hall] at hplace
    obtain ⟨e,he⟩ := (run_quorumOf bucket _
      (fun i => left (prepared session dataDir u i (disks i)))).2 (fun h => hall (hmade.mp h))
    rw [bind_of_error he]
    exact ⟨fun i => (hplace i).1,iff_of_false (by simp [value]) (fun h => hall h.1)⟩

end Place

end Openlake.PartCommit
