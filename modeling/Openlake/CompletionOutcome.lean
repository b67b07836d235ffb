import Openlake.CompletionReads

/-!
# When a completion succeeds

If the checks pass and the lock is still held, a completion succeeds when no
promotion fails, and that does not depend on the sidecars that were deleted in
between. So it can be told from the disks as they were before the call.
-/

set_option autoImplicit false

namespace Openlake.CompletionOutcome
open Openlake.Types XlMeta LocalFs Promote Ops Multipart PartFiles GetObject Sessions Completion
open RenameProgress Leftovers CompletionReads Lib.FileTree Lib.Effects Lib.FanOut

variable {n : ℕ} (c : MetaCodec) (sidecars : Rmp ObjectPartInfo)
  (md5 : Bytes → Bytes) (bucket key uploadId : String) (call : CompleteCall n)

/-- The call passes what is checked before anything is deleted. -/
structure Accepted (disks : Disks n) (fi : FileInfo) (infos : List ObjectPartInfo)
    (digests : Bytes) : Prop where
  bucketName : Buckets.validateBucketName bucket = .ok ()
  listed : checkParts call.parts = .ok ()
  locked : call.lock = .ok ()
  checked : Checked c sidecars (sessionPath bucket key uploadId) disks call.parts fi infos digests

structure Swept (disks s : Disks n) (fi : FileInfo) : Prop where
  trimmed : ∀ i, Trimmed (SidecarOf (sessionPath bucket key uploadId) fi.dataDir call.parts)
    (disks i) (s i)
  gone : ∀ i, ∀ p ∈ call.parts, ¬ShowsFile (s i)
    (partsDir (sessionPath bucket key uploadId) fi.dataDir ++ [metaName p.partNumber])

def answer (fi : FileInfo) (infos : List ObjectPartInfo) (digests : Bytes) : ObjectInfo :=
  assembledInfo bucket key
    (assembledFi bucket key call fi infos (assembledEtag md5 digests call.parts))
    (assembledEtag md5 digests call.parts)

def commit (fi : FileInfo) (infos : List ObjectPartInfo) (digests : Bytes) : Op n ObjectInfo := do
  Prog.ofExcept call.fence
  promoteOp c call.renameFaults multipartVol (sessionPath bucket key uploadId)
    (assembledOn md5 bucket key call fi infos digests) bucket key n
  return answer md5 bucket key call fi infos digests

theorem assemble_cases (disks : Disks n) :
    ((∀ fi infos digests, ¬Checked c sidecars (sessionPath bucket key uploadId) disks call.parts fi
        infos digests) ∧
      ∃ e d, (∀ i, Trimmed (fun _ => False) (disks i) (d i)) ∧
        (assemble c sidecars md5 bucket key uploadId call).run disks = .error e d) ∨
    ∃ fi infos digests s,
      Checked c sidecars (sessionPath bucket key uploadId) disks call.parts fi infos digests ∧
      Swept bucket key uploadId call disks s fi ∧
      (assemble c sidecars md5 bucket key uploadId call).run disks =
        (commit c md5 bucket key uploadId call fi infos digests).run s := by
  obtain ⟨d₁,h₁,⟨fi,hfi,hdir,hsession⟩ | ⟨hno,e,hsession⟩⟩ := readSessionFi_run c
    (sessionPath bucket key uploadId) below_none disks
  · have hdd : FileName fi.dataDir := (readSessionFi_ok c _ _ _ _ _ hsession).1.fileName c hdir
    obtain ⟨d₂,h₂,hparts⟩ := readPartSidecars_run sidecars (sessionPath bucket key uploadId)
      below_none hdd (fun _ h => h) call.parts d₁
    simp only [partInfo_trimmed h₁ _ not_false] at hparts
    have hread : ∀ i, Trimmed (fun _ => False) (disks i) (d₂ i) := fun i =>
      (h₁ i).trans below_none (h₂ i)
    rw [assemble, Prog.run_bind, bind_of_ok hsession, Prog.run_bind]
    rcases hparts with ⟨infos,hinfos,hrun⟩ | ⟨hno,e,hrun⟩
    · rw [bind_of_ok hrun, Prog.run_bind, Prog.run_ofExcept]
      cases hetags : checkEtags call.parts infos with
      | error e =>
        refine .inl ⟨fun fi' infos' digests h => ?_,e,d₂,hread,rfl⟩
        obtain rfl : fi = fi' := Option.some.inj (hfi.symm.trans h.agrees)
        obtain rfl := partInfos_unique hinfos h.sidecars
        rw [h.etags] at hetags
        cases hetags
      | ok digests =>
        refine .inr ⟨fi,infos,digests,fun i => ((deleteSidecars (sessionPath bucket key uploadId)
          fi.dataDir call.parts).run (d₂ i)).2,⟨hfi,hdir,hinfos,hetags⟩,?_,rfl⟩
        have hsweep := fun i =>
          @deleteSidecars_run (sessionPath bucket key uploadId) _ hdd call.parts (d₂ i)
        exact ⟨fun i => ((hread i).mono fun _ h => h.elim).trans (below_sidecars _ _ _) (hsweep i).1,
          fun i => (hsweep i).2⟩
    · rw [bind_of_error hrun]
      refine .inl ⟨fun fi' infos digests h => ?_,e,d₂,hread,rfl⟩
      obtain rfl : fi = fi' := Option.some.inj (hfi.symm.trans h.agrees)
      exact hno infos h.sidecars
  · rw [assemble, Prog.run_bind, bind_of_error hsession]
    exact .inl ⟨fun fi _ _ h => h.dataDir (hno fi h.agrees),e,d₁,h₁,rfl⟩

/-- A call is refused with little changed, or it deletes the sidecars and goes on
to its commit. -/
theorem complete_cases (disks : Disks n) :
    ((∀ fi infos digests, ¬Accepted c sidecars bucket key uploadId call disks fi infos digests) ∧
      ∃ e d, (∀ i, Trimmed (fun _ => False) (disks i) (d i)) ∧
        (completeMultipartUpload c sidecars md5 bucket key uploadId call).run disks = .error e d) ∨
    ∃ fi infos digests s, Accepted c sidecars bucket key uploadId call disks fi infos digests ∧
      Swept bucket key uploadId call disks s fi ∧
      (completeMultipartUpload c sidecars md5 bucket key uploadId call).run disks =
        (commit c md5 bucket key uploadId call fi infos digests).run s := by
  have hassemble := assemble_cases c sidecars md5 bucket key uploadId call disks
  rw [completeMultipartUpload]
  simp only [Prog.run_bind, Prog.run_withLock, Prog.run_ofExcept]
  cases hname : Buckets.validateBucketName bucket with
  | error e =>
    refine .inl ⟨fun _ _ _ h => ?_,e,disks,fun _ => trimmed_refl _ _,rfl⟩
    rw [h.bucketName] at hname
    cases hname
  | ok _ =>
    rw [bind_of_ok ((lift_eq_ok _ _ _ _).mpr ⟨rfl,rfl⟩)]
    cases hlisted : checkParts call.parts with
    | error e =>
      refine .inl ⟨fun _ _ _ h => ?_,e,disks,fun _ => trimmed_refl _ _,rfl⟩
      rw [h.listed] at hlisted
      cases hlisted
    | ok _ =>
      rw [bind_of_ok ((lift_eq_ok _ _ _ _).mpr ⟨rfl,rfl⟩)]
      cases hlocked : call.lock with
      | error e =>
        refine .inl ⟨fun _ _ _ h => ?_,e,disks,fun _ => trimmed_refl _ _,rfl⟩
        rw [h.locked] at hlocked
        cases hlocked
      | ok _ =>
        rw [bind_of_ok ((lift_eq_ok _ _ _ _).mpr ⟨rfl,rfl⟩)]
        rcases hassemble with ⟨hno,hrun⟩ | ⟨fi,infos,digests,s,hchecked,hswept,hrun⟩
        · exact .inl ⟨fun fi infos digests h => hno fi infos digests h.checked,hrun⟩
        · exact .inr ⟨fi,infos,digests,s,⟨hname,hlisted,hlocked,hchecked⟩,hswept,hrun⟩

theorem promoteVersions_all (faults : Fin n → Option IoError) (srcVolume srcPath : String)
    (fis : Fin n → FileInfo) (disks : Disks n) (hfaults : ∀ i, faults i = none)
    (h : ∀ i, ∃ old t, renameData c srcVolume srcPath (fis i) bucket key (disks i) = .ok old t) :
    ∃ d, promoteVersions c faults srcVolume srcPath fis bucket key n disks = .ok () d := by
  have hall : (List.ofFn (fun i => failureOf (value (attempt (faults i)
      (renameData c srcVolume srcPath (fis i) bucket key) (disks i))))).countP Option.isNone = n := by
    rw [List.ofFn_eq_map, List.countP_map, List.countP_eq_length.mpr, List.length_finRange]
    intro i _
    obtain ⟨old,t,ht⟩ := h i
    rw [Function.comp, hfaults i, attempt, ht]
    rfl
  refine ⟨cleanupSrc srcVolume srcPath (fun i => dropStale bucket key (fis i) (attempt (faults i)
    (renameData c srcVolume srcPath (fis i) bucket key) (disks i))),?_⟩
  rw [promoteVersions]
  simp only [hall, lt_irrefl, if_false]

theorem commit_ok_iff (fi : FileInfo) (infos : List ObjectPartInfo) (digests : Bytes) (s : Disks n)
    (info : ObjectInfo) :
    (∃ d, (commit c md5 bucket key uploadId call fi infos digests).run s = .ok info d) ↔
      call.fence = .ok () ∧ (∀ i, call.renameFaults i = none) ∧
      (∀ i, ∃ old t, renameData c multipartVol (sessionPath bucket key uploadId)
        (assembledOn md5 bucket key call fi infos digests i) bucket key (s i) = .ok old t) ∧
      info = answer md5 bucket key call fi infos digests := by
  simp only [commit, Prog.run_bind, Prog.run_ofExcept, run_promoteOp, run_bind_eq_ok, lift_eq_ok]
  constructor
  · rintro ⟨d,_,_,⟨hfence,rfl⟩,_,d',hpromote,hinfo⟩
    obtain ⟨rfl,rfl⟩ := (pure_eq_ok _ _ _ _).mp hinfo
    have hok := promoteVersions_ok c _ _ _ _ _ _ _ _ hpromote
    refine ⟨hfence,fun i => (hok i).1,fun i => ?_,rfl⟩
    obtain ⟨-,old,t,ht,-⟩ := hok i
    exact ⟨old,t,ht⟩
  · rintro ⟨hfence,hfaults,hrenames,rfl⟩
    obtain ⟨d,hd⟩ := promoteVersions_all c bucket key call.renameFaults multipartVol _ _ s hfaults
      hrenames
    exact ⟨d,(),s,⟨hfence,rfl⟩,(),d,hd,rfl⟩

/-- The call passes the checks, the lock is held to the end and nothing is in the
way of the promotions. -/
structure Completable (disks : Disks n) (fi : FileInfo) (infos : List ObjectPartInfo)
    (digests : Bytes) : Prop where
  accepted : Accepted c sidecars bucket key uploadId call disks fi infos digests
  fenced : call.fence = .ok ()
  healthy : ∀ i, call.renameFaults i = none
  renames : ∀ i, ∃ raw existing encoded, Renamable c multipartVol (sessionPath bucket key uploadId)
    (assembledOn md5 bucket key call fi infos digests i) bucket key (disks i) raw existing encoded

theorem Swept.renames_iff {disks s : Disks n} {fi : FileInfo}
    (h : Swept bucket key uploadId call disks s fi)
    (hname : Buckets.validateBucketName bucket = .ok ()) (infos : List ObjectPartInfo)
    (digests : Bytes) (i : Fin n) :
    (∃ old t, renameData c multipartVol (sessionPath bucket key uploadId)
      (assembledOn md5 bucket key call fi infos digests i) bucket key (s i) = .ok old t) ↔
    ∃ raw existing encoded, Renamable c multipartVol (sessionPath bucket key uploadId)
      (assembledOn md5 bucket key call fi infos digests i) bucket key (disks i) raw existing
        encoded := by
  have huser := validName_user bucket hname
  have hvol : multipartVol ≠ bucket := by rintro rfl; cases huser
  have hiff : ∀ raw existing encoded, Renamable c multipartVol (sessionPath bucket key uploadId)
      (assembledOn md5 bucket key call fi infos digests i) bucket key (s i) raw existing encoded ↔
        Renamable c multipartVol (sessionPath bucket key uploadId)
          (assembledOn md5 bucket key call fi infos digests i) bucket key (disks i) raw existing
            encoded :=
    (h.trimmed i).renamable_iff huser (sidecarOf_inside _ _)
  simp only [← hiff]
  constructor
  · rintro ⟨old,t,ht⟩
    exact renamable_of_ok hvol ht
  · rintro ⟨raw,existing,encoded,hr⟩
    exact renameData_progress hvol hr

/-- Whether a call completes can be told from the disks before it. -/
theorem complete_ok_iff (disks : Disks n) (info : ObjectInfo) :
    (∃ d, (completeMultipartUpload c sidecars md5 bucket key uploadId call).run disks =
      .ok info d) ↔
    ∃ fi infos digests, Completable c sidecars md5 bucket key uploadId call disks fi infos digests ∧
      info = answer md5 bucket key call fi infos digests := by
  rcases complete_cases c sidecars md5 bucket key uploadId call disks with
    ⟨hno,e,d,-,hrun⟩ | ⟨fi,infos,digests,s,haccepted,hswept,hrun⟩
  · constructor
    · rintro ⟨d',hd'⟩
      rw [hrun] at hd'
      cases hd'
    · rintro ⟨fi,infos,digests,h,-⟩
      exact absurd h.accepted (hno fi infos digests)
  · simp only [hrun, commit_ok_iff, hswept.renames_iff c md5 _ _ _ _ haccepted.bucketName]
    constructor
    · rintro ⟨hfence,hfaults,hrenames,hinfo⟩
      exact ⟨fi,infos,digests,⟨haccepted,hfence,hfaults,hrenames⟩,hinfo⟩
    · rintro ⟨fi',infos',digests',h,hinfo⟩
      obtain ⟨rfl,rfl,rfl⟩ := haccepted.checked.unique h.accepted.checked
      exact ⟨h.fenced,h.healthy,h.renames,hinfo⟩

end Openlake.CompletionOutcome
