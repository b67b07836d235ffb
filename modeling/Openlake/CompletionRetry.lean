import Openlake.CompletedParts
import Openlake.PromoteFailure

/-!
# Completing again after a failure

A completion deletes the sidecars of its parts before it checks the lock, and
removes the session when a promotion fails. After either the same list cannot
be completed again. A call that was refused leaves the session as it was.
-/

set_option autoImplicit false

namespace Openlake.CompletionRetry
open Openlake.Types XlMeta XlMetaRoundTrip LocalFs Promote Ops Multipart PartFiles GetObject
open Sessions Completion Leftovers CompletionReads CompletionOutcome PromoteFailure PartPairing
open CompletedParts StripeRoundTrip Lib.FileTree Lib.Effects Lib.FanOut

variable {n : ℕ} (c : MetaCodec) (sidecars : Rmp ObjectPartInfo) (md5 : Bytes → Bytes)
  (bucket key uploadId : String) (first again : CompleteCall n)

/-- The first call is refused, or it lists other parts and stops at the lock. -/
def Harmless (disks : Disks n) : Prop :=
  (∀ fi infos digests, ¬Accepted c sidecars bucket key uploadId first disks fi infos digests) ∨
    (∃ e, first.fence = .error e) ∧
      ∀ p ∈ first.parts, ∀ p' ∈ again.parts, p.partNumber ≠ p'.partNumber

section Kept

variable {c sidecars md5 bucket key uploadId again} {disks d : Disks n} {gone : Path → Prop}
  {fi : FileInfo} {infos : List ObjectPartInfo} {digests : Bytes}

theorem completable_trimmed
    (h : Completable c sidecars md5 bucket key uploadId again disks fi infos digests)
    (hd : ∀ i, Trimmed gone (disks i) (d i))
    (hgone : ∀ q, gone q →
      ∃ x y r, q = filePath multipartVol (sessionPath bucket key uploadId) ++ x::y::r)
    (hparts : ∀ p ∈ again.parts,
      ¬gone (partsDir (sessionPath bucket key uploadId) fi.dataDir ++ [metaName p.partNumber])) :
    Completable c sidecars md5 bucket key uploadId again d fi infos digests := by
  have hmeta : ¬gone (metaPath multipartVol (sessionPath bucket key uploadId)) := by
    intro hg
    obtain ⟨x,y,r,he⟩ := hgone _ hg
    simp [metaPath] at he
  obtain ⟨hname,hlisted,hlocked,hagrees,hdir,hsidecars,hetags⟩ := h.accepted
  refine ⟨⟨hname,hlisted,hlocked,(agreed_trimmed hd hmeta).trans hagrees,hdir,?_,hetags⟩,h.fenced,
    h.healthy,fun i => ?_⟩
  · refine ((List.forall₂_and_left _ _).mpr ⟨hparts,hsidecars⟩).imp ?_
    rintro p info ⟨hkept,hinfo⟩
    exact (partInfo_trimmed hd p hkept).trans hinfo
  · obtain ⟨raw,existing,encoded,hr⟩ := h.renames i
    exact ⟨raw,existing,encoded,
      ((hd i).renamable_iff (validName_user bucket hname) hgone raw existing encoded).mpr hr⟩

end Kept

section Lost

variable {c sidecars md5 bucket key uploadId first again} {disks s : Disks n} {fi : FileInfo}

theorem not_completable_of_common (hswept : Swept bucket key uploadId first disks s fi)
    (hagrees : agreed c (sessionPath bucket key uploadId) disks = some fi) {p p' : CompletePart}
    (hp : p ∈ first.parts) (hp' : p' ∈ again.parts) (heq : p.partNumber = p'.partNumber)
    (fi' : FileInfo) (infos : List ObjectPartInfo) (digests : Bytes) :
    ¬Completable c sidecars md5 bucket key uploadId again s fi' infos digests := by
  intro h
  have hsame := agreed_trimmed (c := c) hswept.trimmed (metaPath_not_sidecar _ _ _)
  obtain rfl : fi = fi' := Option.some.inj
    ((hagrees.symm.trans hsame.symm).trans h.accepted.checked.agrees)
  obtain ⟨info,-,hinfo⟩ := forall₂_mem_right h.accepted.checked.sidecars.flip _ hp'
  have hnone : (List.ofFn s).filterMap (sidecarOn (sessionPath bucket key uploadId) fi.dataDir
      p'.partNumber) = [] := by
    rw [List.filterMap_eq_nil_iff]
    intro t ht
    obtain ⟨i,rfl⟩ := (List.mem_ofFn' _ _).mp ht
    rw [sidecarOn, ← heq, Option.eq_none_iff_forall_ne_some]
    intro bytes hbytes
    exact hswept.gone i p hp ⟨bytes,(fileOf_eq_some _ _).mp hbytes⟩
  rw [partInfo, hnone] at hinfo
  cases hinfo

theorem not_completable_of_removed
    (hremoved : ∀ i, look (s i) (metaPath multipartVol (sessionPath bucket key uploadId)) = none)
    (fi' : FileInfo) (infos : List ObjectPartInfo) (digests : Bytes) :
    ¬Completable c sidecars md5 bucket key uploadId again s fi' infos digests := by
  intro h
  have hnone : (List.ofFn s).filterMap (recordOn c (sessionPath bucket key uploadId)) = [] := by
    rw [List.filterMap_eq_nil_iff]
    intro t ht
    obtain ⟨i,rfl⟩ := (List.mem_ofFn' _ _).mp ht
    rw [recordOn, hremoved]
    rfl
  have hagrees := h.accepted.checked.agrees
  rw [agreed, hnone] at hagrees
  cases hagrees

end Lost

theorem commit_error_cases (fi : FileInfo) (infos : List ObjectPartInfo) (digests : Bytes)
    (s d : Disks n) (e : StorageError)
    (h : (commit c md5 bucket key uploadId first fi infos digests).run s = .error e d) :
    (first.fence = .error e ∧ d = s) ∨
      first.fence = .ok () ∧ ∀ i, look (d i) (metaPath multipartVol (sessionPath bucket key uploadId)) =
        none := by
  rw [commit, Prog.run_bind, Prog.run_ofExcept] at h
  cases hfence : first.fence with
  | error e' =>
    rw [hfence] at h
    cases h
    exact .inl ⟨rfl,rfl⟩
  | ok _ =>
    refine .inr ⟨rfl,fun i => ?_⟩
    rw [hfence, bind_of_ok ((lift_eq_ok _ _ _ _).mpr ⟨rfl,rfl⟩), Prog.run_bind, run_promoteOp] at h
    cases hp : promoteVersions c first.renameFaults multipartVol (sessionPath bucket key uploadId)
        (assembledOn md5 bucket key first fi infos digests) bucket key n s with
    | ok u d' =>
      rw [bind_of_ok hp] at h
      cases h
    | error e' d' =>
      rw [bind_of_error hp] at h
      cases h
      rw [promoteVersions_error c _ _ _ _ _ _ _ _ _ _ hp i]
      exact delete_below _ _ metaFilename []

/-- The files of the listed parts are among those of the object. -/
def Carries (disks d : Disks n) : Prop :=
  ∀ sk, Majority c (sessionPath bucket key uploadId) sk disks → ∀ p ∈ again.parts, ∀ i bytes,
    look (disks i) (partsDir (sessionPath bucket key uploadId) sk.dataDir ++
      [partName p.partNumber]) = some (.file bytes) →
    look (d i) (filePath bucket key ++ [sk.dataDir,partName p.partNumber]) = some (.file bytes)

theorem completes_trimmed {parts : List CompletePart} {dataDir : String} {disks s : Disks n}
    {info : ObjectInfo}
    (hvalid : value ((completeMultipartUpload c sidecars md5 bucket key uploadId again).run disks) =
      .ok info)
    (hs : ∀ i, Trimmed (SidecarOf (sessionPath bucket key uploadId) dataDir parts) (disks i) (s i))
    (hparts : ∀ p ∈ parts, ∀ p' ∈ again.parts, p.partNumber ≠ p'.partNumber) :
    ∃ d, (completeMultipartUpload c sidecars md5 bucket key uploadId again).run s = .ok info d ∧
      Carries c bucket key uploadId again disks d := by
  have hbefore : ∃ d, (completeMultipartUpload c sidecars md5 bucket key uploadId again).run disks =
      .ok info d := by
    cases hrun : (completeMultipartUpload c sidecars md5 bucket key uploadId again).run disks with
    | ok a d =>
      rw [hrun] at hvalid
      exact ⟨d,congrArg (EStateM.Result.ok · d) (Except.ok.inj hvalid)⟩
    | error e d =>
      rw [hrun] at hvalid
      cases hvalid
  obtain ⟨fi,infos,digests,hcompletable,rfl⟩ :=
    (complete_ok_iff c sidecars md5 bucket key uploadId again disks info).mp hbefore
  have hkept : ∀ p ∈ again.parts, ¬SidecarOf (sessionPath bucket key uploadId) dataDir parts
      (partsDir (sessionPath bucket key uploadId) fi.dataDir ++ [metaName p.partNumber]) := by
    rintro p' hp' ⟨p,hp,he⟩
    have hname : metaName p'.partNumber = metaName p.partNumber := by
      simpa using (List.append_inj' he rfl).2
    exact hparts p hp p' hp' (metaName_inj hname).symm
  obtain ⟨d,hd⟩ := (complete_ok_iff c sidecars md5 bucket key uploadId again s _).mpr
    ⟨fi,infos,digests,completable_trimmed hcompletable hs (sidecarOf_inside _ _) hkept,rfl⟩
  refine ⟨d,hd,fun sk hsk p hp i bytes hbytes => ?_⟩
  obtain ⟨s',fi',infos',digests',hdone⟩ := complete_ok c sidecars md5 bucket key uploadId again s d
    _ hd
  have hkey : sessionKey fi' = sk :=
    ((majority_trimmed hs (metaPath_not_sidecar _ _ _) sk).mpr hsk).unique c hdone.majority
  subst hkey
  apply hdone.carried i _ (fun q _ => partName_ne_metaName _ _)
  refine ((hs i).kept ?_ (entry_not_vol _ _ _ [])).trans hbytes
  rintro ⟨q,-,he⟩
  exact partName_ne_metaName _ _ (by simpa using (List.append_inj' he rfl).2)

/-- After a call that failed, a list that would have been completed before is
completed, with all its files, exactly when the call was harmless. -/
theorem retry_completes_iff (disks : Disks n) (info : ObjectInfo) (e : StorageError)
    (hvalid : value ((completeMultipartUpload c sidecars md5 bucket key uploadId again).run disks) =
      .ok info)
    (herr : value ((completeMultipartUpload c sidecars md5 bucket key uploadId first).run disks) =
      .error e) :
    (∃ d, (completeMultipartUpload c sidecars md5 bucket key uploadId again).run
        (left ((completeMultipartUpload c sidecars md5 bucket key uploadId first).run disks)) =
          .ok info d ∧ Carries c bucket key uploadId again disks d) ↔
      Harmless c sidecars bucket key uploadId first again disks := by
  rcases complete_cases c sidecars md5 bucket key uploadId first disks with
    ⟨hno,e',d,hd,hrun⟩ | ⟨fi,infos,digests,s,haccepted,hswept,hrun⟩
  · refine iff_of_true ?_ (.inl hno)
    rw [hrun]
    have hnone : ∀ i, Trimmed (SidecarOf (sessionPath bucket key uploadId) "" []) (disks i) (d i) :=
      fun i => (hd i).mono fun _ h => h.elim
    exact completes_trimmed c sidecars md5 bucket key uploadId again hvalid hnone (by simp)
  · rw [hrun] at herr ⊢
    cases hcommit : (commit c md5 bucket key uploadId first fi infos digests).run s with
    | ok a d =>
      rw [hcommit] at herr
      cases herr
    | error e' d =>
      have hfails : ∀ {d : Disks n}, (∀ fi' infos' digests', ¬Completable c sidecars md5 bucket key
          uploadId again d fi' infos' digests') → ¬∃ d', (completeMultipartUpload c sidecars md5
            bucket key uploadId again).run d = .ok info d' ∧
              Carries c bucket key uploadId again disks d' := by
        rintro d hno ⟨d',hd',-⟩
        obtain ⟨fi',infos',digests',h,-⟩ :=
          (complete_ok_iff c sidecars md5 bucket key uploadId again d info).mp ⟨d',hd'⟩
        exact hno fi' infos' digests' h
      rcases commit_error_cases c md5 bucket key uploadId first fi infos digests s d e' hcommit with
        ⟨hfence,rfl⟩ | ⟨hfence,hremoved⟩
      · by_cases hcommon : ∀ p ∈ first.parts, ∀ p' ∈ again.parts, p.partNumber ≠ p'.partNumber
        · refine iff_of_true ?_ (.inr ⟨⟨e',hfence⟩,hcommon⟩)
          exact completes_trimmed c sidecars md5 bucket key uploadId again hvalid hswept.trimmed
            hcommon
        · refine iff_of_false ?_ ?_
          · push Not at hcommon
            obtain ⟨p,hp,p',hp',heq⟩ := hcommon
            exact hfails (not_completable_of_common hswept haccepted.checked.agrees hp hp' heq)
          · rintro (hno | ⟨-,hdisjoint⟩)
            · exact hno fi infos digests haccepted
            · exact hcommon hdisjoint
      · refine iff_of_false (hfails (not_completable_of_removed hremoved)) ?_
        rintro (hno | ⟨⟨e'',he''⟩,-⟩)
        · exact hno fi infos digests haccepted
        · rw [hfence] at he''
          cases he''

theorem uploadedOnce_completable : Completable finalCodec sampleSidecars sampleMd5 "bkt" "k" "up"
    finalCall uploadedOnce foundFi [firstTry.info mirrorCode "d4"] [212] :=
  @final_completable (fun _ _ => True) _ _ (.next firstTry .start (by decide) trivial)
    (uploadedOnce_sidecar 0)

def finalInfo : ObjectInfo :=
  answer sampleMd5 "bkt" "k" finalCall foundFi [firstTry.info mirrorCode "d4"] [212]

theorem uploadedOnce_completes : value ((completeMultipartUpload finalCodec sampleSidecars sampleMd5
    "bkt" "k" "up" finalCall).run uploadedOnce) = .ok finalInfo := by
  obtain ⟨d,hd⟩ := (complete_ok_iff finalCodec sampleSidecars sampleMd5 "bkt" "k" "up" finalCall
    uploadedOnce finalInfo).mpr ⟨_,_,_,uploadedOnce_completable,rfl⟩
  rw [hd]
  rfl

/-- The list with an etag that is not the one of the part. -/
def wrongCall : CompleteCall 2 := { finalCall with parts := [⟨1,"00"⟩] }

theorem wrongCall_refused (fi : FileInfo) (infos : List ObjectPartInfo) (digests : Bytes) :
    ¬Accepted finalCodec sampleSidecars "bkt" "k" "up" wrongCall uploadedOnce fi infos digests := by
  intro h
  have hright := uploadedOnce_completable.accepted.checked
  obtain rfl : foundFi = fi := Option.some.inj (hright.agrees.symm.trans h.checked.agrees)
  obtain ⟨info,rest,hinfo,hrest,rfl⟩ := List.forall₂_cons_left_iff.mp h.checked.sidecars
  obtain rfl := List.forall₂_nil_left_iff.mp hrest
  obtain ⟨hfirst,-⟩ := List.forall₂_cons.mp hright.sidecars
  obtain rfl := Option.some.inj (hfirst.symm.trans hinfo)
  have hmismatch : (checkEtags wrongCall.parts [firstTry.info mirrorCode "d4"]).toOption = none := by
    decide +kernel
  rw [h.checked.etags] at hmismatch
  cases hmismatch

theorem wrongCall_retried :
    (∃ e, value ((completeMultipartUpload finalCodec sampleSidecars sampleMd5 "bkt" "k" "up"
      wrongCall).run uploadedOnce) = .error e) ∧
    ∃ d, (completeMultipartUpload finalCodec sampleSidecars sampleMd5 "bkt" "k" "up" finalCall).run
        (left ((completeMultipartUpload finalCodec sampleSidecars sampleMd5 "bkt" "k" "up"
          wrongCall).run uploadedOnce)) = .ok finalInfo d ∧
      Carries finalCodec "bkt" "k" "up" finalCall uploadedOnce d := by
  rcases complete_cases finalCodec sampleSidecars sampleMd5 "bkt" "k" "up" wrongCall uploadedOnce with
    ⟨-,e,d,-,hrun⟩ | ⟨fi,infos,digests,-,haccepted,-⟩
  · have herr : value ((completeMultipartUpload finalCodec sampleSidecars sampleMd5 "bkt" "k" "up"
        wrongCall).run uploadedOnce) = .error e := by
      rw [hrun]
      rfl
    exact ⟨⟨e,herr⟩,(retry_completes_iff finalCodec sampleSidecars sampleMd5 "bkt" "k" "up" wrongCall
      finalCall uploadedOnce finalInfo e uploadedOnce_completes herr).mpr (.inl wrongCall_refused)⟩
  · exact absurd haccepted (wrongCall_refused fi infos digests)

/-- The lock is lost before the commit. -/
def lateCall : CompleteCall 2 := { finalCall with fence := .error (.lockLost (objLockKey "bkt" "k")) }

/-- The sidecar is gone by then, so the same list is refused from then on. -/
theorem lateCall_loses_part :
    value ((completeMultipartUpload finalCodec sampleSidecars sampleMd5 "bkt" "k" "up"
      finalCall).run uploadedOnce) = .ok finalInfo ∧
    value ((completeMultipartUpload finalCodec sampleSidecars sampleMd5 "bkt" "k" "up"
      lateCall).run uploadedOnce) = .error (.lockLost (objLockKey "bkt" "k")) ∧
    ∃ e, value ((completeMultipartUpload finalCodec sampleSidecars sampleMd5 "bkt" "k" "up"
      finalCall).run (left ((completeMultipartUpload finalCodec sampleSidecars sampleMd5 "bkt" "k" "up"
        lateCall).run uploadedOnce))) = .error e := by
  have hlate : Accepted finalCodec sampleSidecars "bkt" "k" "up" lateCall uploadedOnce foundFi
      [firstTry.info mirrorCode "d4"] [212] := by
    obtain ⟨hname,hlisted,hlocked,hchecked⟩ := uploadedOnce_completable.accepted
    exact ⟨hname,hlisted,hlocked,hchecked⟩
  rcases complete_cases finalCodec sampleSidecars sampleMd5 "bkt" "k" "up" lateCall uploadedOnce with
    ⟨hno,-⟩ | ⟨fi,infos,digests,s,haccepted,hswept,hrun⟩
  · exact absurd hlate (hno _ _ _)
  · rw [hrun]
    have hstops : (commit finalCodec sampleMd5 "bkt" "k" "up" lateCall fi infos digests).run s =
        .error (.lockLost (objLockKey "bkt" "k")) s := rfl
    rw [hstops]
    refine ⟨uploadedOnce_completes,rfl,?_⟩
    cases hagain : (completeMultipartUpload finalCodec sampleSidecars sampleMd5 "bkt" "k" "up"
        finalCall).run s with
    | error e d =>
      show ∃ e', value ((completeMultipartUpload finalCodec sampleSidecars sampleMd5 "bkt" "k" "up"
        finalCall).run s) = .error e'
      rw [hagain]
      exact ⟨e,rfl⟩
    | ok info d =>
      obtain ⟨fi',infos',digests',h,-⟩ := (complete_ok_iff finalCodec sampleSidecars sampleMd5 "bkt"
        "k" "up" finalCall s info).mp ⟨d,hagain⟩
      exact absurd h (not_completable_of_common hswept haccepted.checked.agrees List.mem_cons_self
        List.mem_cons_self rfl fi' infos' digests')

end Openlake.CompletionRetry
