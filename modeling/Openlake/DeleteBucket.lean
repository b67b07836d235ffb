import Openlake.CreateBucket
import Openlake.DeleteQuorum
import Openlake.Ops
import Openlake.Walk

/-!
# Deleting a bucket

Unless forced, a delete first lists the bucket on every disk and stops at the first
entry. It then tries to drop the bucket's metadata and removes the volume on every disk.
-/

set_option autoImplicit false

namespace Openlake.DeleteBucket
open Openlake.Types XlMeta LocalFs Promote Buckets Ops Lib.FileTree Lib.Effects Lib.Outcomes

structure DeleteCall (N n : ℕ) where
  lock : Except StorageError Unit
  listFaults : Fin N → Option IoError
  metaLock : Except StorageError Unit
  metaFaults : Fin n → Option IoError
  volFaults : Fin N → Option IoError

def isVolumeNotFound : IoError → Bool
  | .volumeNotFound _ => true
  | _ => false

def requireEmpty (bucket : String) : List (Except IoError (List String)) → Except StorageError Unit
  | [] => .ok ()
  | .ok (_::_)::_ => .error (.bucketNotEmpty bucket)
  | .ok []::probes => requireEmpty bucket probes
  | .error e::probes =>
    if isVolumeNotFound e then requireEmpty bucket probes else .error (.io e)

section Delete

variable {N n : ℕ} (c : MetaCodec) (set : Fin n → Fin N) (call : DeleteCall N n) (bucket : String)

def listed (i : Fin N) : Fs (List String) := attempt (call.listFaults i) (listDir bucket "" 1)

def checkEmpty : Engine N Unit := fun disks =>
  lift (requireEmpty bucket (List.ofFn (fun i => value (listed call bucket i (disks i)))))
    (fun i => left (listed call bucket i (disks i)))

def removed (i : Fin N) : Fs Unit := attempt (call.volFaults i) (deleteVol bucket true)

def deleteVols : Engine N Unit := fun disks =>
  lift ((requireQuorum (List.ofFn (fun i => value (removed call bucket i (disks i)))) N
    isVolumeNotFound).mapError .io) (fun i => left (removed call bucket i (disks i)))

def deleteBucket (force : Bool) : Engine N Unit := do
  lift (validateBucketName bucket)
  lift call.lock
  if !force then checkEmpty call bucket
  ignore (onSet set (DeleteQuorum.delete c call.metaLock call.metaFaults systemBucket
    (bktMetaKey bucket)))
  deleteVols call bucket

variable {call bucket} {i : Fin N} {e : IoError}

theorem requireEmpty_ok {probes : List (Except IoError (List String))} {u : Unit}
    (h : requireEmpty bucket probes = .ok u) {p : Except IoError (List String)} (hp : p ∈ probes) :
    p = .ok [] ∨ ∃ e, p = .error e ∧ isVolumeNotFound e := by
  induction probes with
  | nil => cases hp
  | cons x probes ih =>
    rcases x with e | names
    · rw [requireEmpty] at h
      split_ifs at h with he
      rcases List.mem_cons.mp hp with rfl | hp
      · exact .inr ⟨e,rfl,he⟩
      · exact ih h hp
    · cases names with
      | cons => cases h
      | nil =>
        rcases List.mem_cons.mp hp with rfl | hp
        · exact .inl rfl
        · exact ih h hp

theorem removed_none (h : call.volFaults i = none) (t : Disk) :
    look (left (removed call bucket i t)) [bucket] = none := by
  rw [removed, h, attempt, deleteVol, if_pos rfl, change, trash, stat]
  cases hg : get t [bucket] with
  | none =>
    show look t [bucket] = none
    rw [look, hg]
    rfl
  | some node =>
    show look (prune t [bucket]) [bucket] = none
    rw [look_prune, if_pos ⟨by simp,List.prefix_rfl⟩]

theorem requireQuorum_benign {results : Fin N → Except IoError Unit} {u : Unit}
    (h : requireQuorum (List.ofFn results) N isVolumeNotFound = .ok u)
    (he : results i = .error e) : isVolumeNotFound e := by
  by_contra hne
  have hmem : e ∈ ((List.ofFn results).filterMap failureOf).filter (fun e => !isVolumeNotFound e) := by
    rw [List.mem_filter, List.mem_filterMap]
    exact ⟨⟨_,List.mem_ofFn.mpr ⟨i,he⟩,rfl⟩,by simpa using hne⟩
  have hpos := List.length_pos_of_mem hmem
  have hi := i.isLt
  simp only [requireQuorum] at h
  split_ifs at h with hq
  rw [List.length_ofFn] at hq
  omega

variable (hlist : ∀ i, ∀ e ∈ call.listFaults i, isVolumeNotFound e = false)

include hlist

theorem listed_entry {t : Disk} {x : String} {q : Path} {k : Kind Bytes}
    (h : look t (bucket::x::q) = some k) :
    look (left (listed call bucket i t)) (bucket::x::q) = some k ∧
      value (listed call bucket i t) ≠ .ok [] ∧
      ∀ e, value (listed call bucket i t) = .error e → isVolumeNotFound e = false := by
  rw [listed]
  cases hf : call.listFaults i with
  | some e =>
    refine ⟨h,fun he => ?_,fun e' he => ?_⟩
    · cases he
    · cases he
      exact hlist i e hf
  | none =>
    have hvol : look t [bucket] = some .dir := look_above t [bucket] q x k h
    obtain ⟨s,hs,hsame⟩ := requireVol_of_dir bucket t hvol
    obtain ⟨es,hes⟩ := get_of_dir s [bucket] ((hsame _).trans hvol)
    have hx : x ∈ names es := by
      rw [mem_names s [bucket] es hes, hsame]
      intro hnone
      have hbelow := look_below_none t _ hnone q
      rw [show look t ([bucket] ++ [x] ++ q) = some k from h] at hbelow
      cases hbelow
    obtain ⟨y,ys,hys⟩ := List.exists_cons_of_ne_nil (List.ne_nil_of_mem hx)
    have hread : attempt none (listDir bucket "" 1) t = .ok [y] s := by
      rw [attempt, listDir, bind_of_ok hs, probe_eq_ok, show filePath bucket "" = [bucket] from rfl,
        readNames, stat, hes]
      exact ⟨congrArg (fun l => Except.ok (l.take 1)) hys,rfl⟩
    rw [hread]
    refine ⟨(hsame _).trans h,fun he => ?_,fun e he => ?_⟩ <;> cases he

theorem checkEmpty_keeps (rest : Unit → Engine N Unit) (x : String) (q : Path) (k : Kind Bytes) :
    Keeps (fun disks : Disks N => look (disks i) (bucket::x::q) = some k)
      (checkEmpty call bucket >>= rest) := by
  constructor
  intro disks hk
  obtain ⟨hkept,hentry,herror⟩ := listed_entry hlist hk
  cases hreq : requireEmpty bucket (List.ofFn (fun i => value (listed call bucket i (disks i)))) with
  | error e =>
    rw [bind_of_error (by rw [checkEmpty, hreq]; rfl)]
    exact hkept
  | ok u =>
    rcases requireEmpty_ok hreq (List.mem_ofFn.mpr ⟨i,rfl⟩) with hnil | ⟨e,he,hmissing⟩
    · exact absurd hnil hentry
    · rw [herror e he] at hmissing
      cases hmissing

/-- Without force, a delete loses nothing that a disk holds in the bucket, whichever calls fail. One
that returns has removed the volume, except on disks that answered that they have none. -/
theorem unforced_delete (disks : Disks N) :
    (∀ i x q k, look (disks i) (bucket::x::q) = some k →
      look (left (deleteBucket c set call bucket false disks) i) (bucket::x::q) = some k) ∧
    ∀ s, deleteBucket c set call bucket false disks = .ok () s → ∀ i,
      look (s i) [bucket] = none ∨ ∃ e ∈ call.volFaults i, isVolumeNotFound e := by
  constructor
  · intro i x q k
    exact (keeps_bind (keeps_lift _) fun _ _ _ _ => keeps_bind (keeps_lift _) fun _ _ _ _ =>
      checkEmpty_keeps hlist _ x q k).kept disks
  · intro s h i
    change (lift _ >>= fun _ => lift _ >>= fun _ => checkEmpty call bucket >>= fun _ =>
      ignore _ >>= fun _ => deleteVols call bucket) disks = .ok () s at h
    simp only [run_bind_eq_ok] at h
    obtain ⟨_,_,-,_,_,-,_,_,-,_,t,-,h⟩ := h
    rw [deleteVols, Lib.Effects.lift_eq_ok, mapError_eq_ok] at h
    obtain ⟨hquorum,rfl⟩ := h
    cases hf : call.volFaults i with
    | none => exact .inl (removed_none hf _)
    | some e =>
      exact .inr ⟨e,rfl,requireQuorum_benign (i := i) hquorum (by rw [removed, hf]; rfl)⟩

end Delete

open CreateBucket

def plainCall : DeleteCall 3 3 := ⟨.ok (),fun _ => none,.ok (),fun _ => none,fun _ => none⟩

theorem heldDisks_kept :
    value (deleteBucket RecordBytes.putCodec id plainCall "abc" false heldDisks) =
        .error (.bucketNotEmpty "abc") ∧
      ∀ i, look (left (deleteBucket RecordBytes.putCodec id plainCall "abc" false heldDisks) i)
        ["abc","k"] = some .dir :=
  ⟨by decide +kernel,fun i =>
    (unforced_delete RecordBytes.putCodec id (by simp [plainCall]) heldDisks).1 i "k" [] .dir rfl⟩

end Openlake.DeleteBucket
