import Openlake.Buckets
import Openlake.RecordBytes

/-!
# What a failed bucket creation leaves

Creating a volume never touches one that exists. The rollback removes the volume
on every disk of the cluster, so a creation that fails halfway also removes the
volumes that were there before it.
-/

set_option autoImplicit false

namespace Openlake.CreateBucket
open Openlake.Types XlMeta LocalFs Promote Buckets Lib.FileTree Lib.Effects

section Volumes

variable {N : ℕ}

def HasVolume (bucket : String) (t : Disk) : Prop := look t [bucket] = some .dir

def KeepsVolumes (bucket : String) (disks disks' : Disks N) : Prop :=
  ∀ i, HasVolume bucket (disks i) → ∀ q, [bucket] <+: q → look (disks' i) q = look (disks i) q

theorem makeVol_exists (bucket : String) (t : Disk) (h : HasVolume bucket t) :
    ∃ e, makeVol bucket t = .error e t := by
  rw [makeVol]
  by_cases hbad : bucket = "" ∨ '/' ∈ bucket.toList ∨ Char.ofNat 0 ∈ bucket.toList
  · exact ⟨_,bind_of_error (by rw [refuse, if_pos hbad]; rfl) _⟩
  · rw [bind_of_ok (a := ()) (t := t) (by rw [refuse, if_neg hbad]; rfl), change, createDir]
    rw [HasVolume, look] at h
    cases hg : get t [bucket] with
    | none => rw [hg] at h; cases h
    | some c => exact ⟨_,rfl⟩

theorem attempt_makeVol_exists (fault : Option IoError) (bucket : String) (t : Disk)
    (h : HasVolume bucket t) : ∃ e, attempt fault (makeVol bucket) t = .error e t := by
  cases fault with
  | none => exact makeVol_exists bucket t h
  | some e => exact ⟨e,rfl⟩

theorem deleteVol_gone (bucket : String) (t : Disk) (h : HasVolume bucket t) :
    look (left (deleteVol bucket true t)) [bucket] = none := by
  rw [HasVolume, look] at h
  cases hg : get t [bucket] with
  | none => rw [hg] at h; cases h
  | some c =>
    have htrash : trash t [bucket] = .ok (prune t [bucket]) := by
      rw [trash, stat, hg]
      rfl
    rw [deleteVol, if_pos rfl, change, htrash]
    show look (prune t [bucket]) [bucket] = none
    rw [look_prune, if_pos ⟨by simp,List.prefix_rfl⟩]

theorem all_made_none_had (faults : Fin N → Option IoError) (bucket : String) (disks : Disks N)
    (h : (volAnswers faults bucket disks).countP (fun r => r = .ok ()) = N) (i : Fin N) :
    ¬HasVolume bucket (disks i) := by
  intro hvol
  obtain ⟨e,he⟩ := attempt_makeVol_exists (faults i) bucket (disks i) hvol
  have hall := List.countP_eq_length.mp (h.trans (List.length_ofFn (f := fun i => value
    (attempt (faults i) (makeVol bucket) (disks i)))).symm)
  have hok := hall _ (List.mem_ofFn.mpr ⟨i,rfl⟩)
  rw [he] at hok
  cases of_decide_eq_true hok

end Volumes

section Creation

variable {N n : ℕ} (c : MetaCodec) (blake3Hex : Bytes → String)
  (encodeMeta : BucketMeta → Except IoError Bytes) (set : Fin n → Fin N) (parityShards : ℕ)
  (call : CreateCall N n) (bucket : String) (m : BucketMeta) (disks : Disks N)

theorem createUnderLock_keeps_iff :
    (∀ e s, createUnderLock c blake3Hex encodeMeta set parityShards call bucket m disks =
      .error e s → KeepsVolumes bucket disks s) ↔
    (∀ i, ¬HasVolume bucket (disks i)) ∨
      N/2+1 ≤ (volAnswers call.volFaults bucket disks).countP isVolumeExists := by
  have hmade : ∀ i, HasVolume bucket (disks i) →
      left (attempt (call.volFaults i) (makeVol bucket) (disks i)) = disks i := by
    intro i hi
    obtain ⟨e,he⟩ := attempt_makeVol_exists (call.volFaults i) bucket (disks i) hi
    rw [he]
    rfl
  rw [createUnderLock]
  by_cases hmaj : N/2+1 ≤ (volAnswers call.volFaults bucket disks).countP isVolumeExists
  · refine iff_of_true (fun e s h => ?_) (.inr hmaj)
    rw [if_pos hmaj] at h
    cases h
    intro i hi q _
    exact congrArg (look · q) (hmade i hi)
  · by_cases hall : (volAnswers call.volFaults bucket disks).countP (fun r => r = .ok ()) = N
    · have hnone := all_made_none_had call.volFaults bucket disks hall
      exact iff_of_true (fun e s _ i hi => absurd hi (hnone i)) (.inl hnone)
    · rw [if_neg hmaj, if_pos hall]
      constructor
      · intro h
        refine .inl (fun i hi => ?_)
        have hkept := h _ _ rfl i hi [bucket] List.prefix_rfl
        rw [deleteVolAll, hmade i hi, deleteVol_gone bucket (disks i) hi, hi] at hkept
        cases hkept
      · intro h e s _ i hi
        exact absurd hi ((h.resolve_right hmaj) i)

/-- A failed creation keeps the volumes that were there exactly when it was
refused before it began, no disk had the volume, or a majority of the disks
answered that it exists. -/
theorem createBucket_keeps_iff :
    (∀ e s, createBucket c blake3Hex encodeMeta set parityShards call bucket m disks = .error e s →
      KeepsVolumes bucket disks s) ↔
    validateBucketName bucket ≠ .ok () ∨ call.lock ≠ .ok () ∨
      (∀ i, ¬HasVolume bucket (disks i)) ∨
      N/2+1 ≤ (volAnswers call.volFaults bucket disks).countP isVolumeExists := by
  rw [createBucket]
  cases hname : validateBucketName bucket with
  | error e' =>
    refine iff_of_true (fun e s h => ?_) (.inl nofun)
    have hrefused : (lift (.error e') : Engine N Unit) disks =
      .error e' disks := rfl
    rw [bind_of_error hrefused] at h
    cases h
    exact fun _ _ _ _ => rfl
  | ok u =>
    have hvalid : (lift (.ok u) : Engine N Unit) disks = .ok u disks := rfl
    rw [bind_of_ok hvalid]
    cases hlock : call.lock with
    | error e' =>
      refine iff_of_true (fun e s h => ?_) (.inr (.inl nofun))
      have hrefused : (lift (.error e') : Engine N Unit) disks =
        .error e' disks := rfl
      rw [bind_of_error hrefused] at h
      cases h
      exact fun _ _ _ _ => rfl
    | ok v =>
      have hheld : (lift (.ok v) : Engine N Unit) disks = .ok v disks := rfl
      rw [bind_of_ok hheld, createUnderLock_keeps_iff]
      simp

end Creation

def heldDisks : Disks 3 := fun _ => .dir [("abc",.dir [("k",.dir [("xl.meta",.file [1])])])]

/-- Only the first disk answers in time. -/
def slowCall : CreateCall 3 3 where
  lock := .ok ()
  volFaults i := if i.val = 0 then none else some (.io .timedOut "operation timed out")
  metaWrite := ⟨1,"s",fun _ => none⟩

def plainMeta : BucketMeta := ⟨1,.unversioned,1,false⟩

/-- Creating a bucket that all disks hold, with two of three disks slow to
answer, fails and removes it everywhere. -/
theorem slowCall_drops : (∀ i, HasVolume "abc" (heldDisks i)) ∧
    value (createBucket RecordBytes.putCodec (fun _ => "") (fun _ => .ok []) id 1 slowCall "abc"
      plainMeta heldDisks) = .error (.io (.io .timedOut "operation timed out")) ∧
    ∀ i, look (left (createBucket RecordBytes.putCodec (fun _ => "") (fun _ => .ok []) id 1 slowCall
      "abc" plainMeta heldDisks) i) ["abc"] = none :=
  ⟨fun _ => rfl,by decide +kernel,by decide +kernel⟩

end Openlake.CreateBucket
