import Openlake.Sessions

/-!
# Attempts on a session

An attempt leaves the parts of its session as they were, or it commits: one of
them is renewed on every disk, as far as the calls for it went. Either way the
session file stays.
-/

set_option autoImplicit false

namespace Openlake.PartRuns
open Openlake.Types XlMeta XlMetaRoundTrip LocalFs Promote Ops Ec Multipart PartFiles PartCommit
open PartAttempt Sessions Lib.FileTree Lib.Effects Lib.FanOut Lib.Outcomes

variable {n : ℕ} (c : MetaCodec)

section Outcome

variable (sidecars : Rmp ObjectPartInfo) (md5 : Bytes → Bytes) (rs : ReedSolomon)
  (bucket key uploadId : String)

/-- One part of the session is renewed on a disk, as far as its calls went, and
the rest is as before. -/
structure Renewed (session dataDir : String) (u : PartUpload n) (sidecar : Bytes) (i : Fin n) (shard : Bytes) (t s : Disk) : Prop where
  room : Roomy (partsDir session dataDir) s
  partEntry : look s (partsDir session dataDir ++ [partName u.partNumber]) =
    if (∀ j, u.faults.makeDir j = none) ∧ u.faults.renamePart i = none then some (.file shard)
    else if u.faults.deletePart i = none then none
    else look t (partsDir session dataDir ++ [partName u.partNumber])
  metaEntry : look s (partsDir session dataDir ++ [metaName u.partNumber]) =
    if (∀ j, u.faults.makeDir j = none) ∧ u.faults.renamePart i = none ∧
      u.faults.writeMeta i = none then some (.file sidecar)
    else if u.faults.deleteMeta i = none then none
    else look t (partsDir session dataDir ++ [metaName u.partNumber])
  vol : look s [stagingVol] = look t [stagingVol] ∨ look s [stagingVol] = some .dir
  other : ∀ q, Off (partsDir session dataDir) (stagingDir u.stagingId) q →
    q ≠ partsDir session dataDir ++ [partName u.partNumber] →
    q ≠ partsDir session dataDir ++ [metaName u.partNumber] → look s q = look t q

structure Committed (session : String) (sk : SessionKey) (u : PartUpload n) (ec : Erasure)
    (etag : String) (sinks : List (PartSink n)) (sidecar : Bytes) (disks : Disks n)
    (r : EStateM.Result StorageError (Disks n) ObjectPartInfo) : Prop where
  renewed : ∀ i, Renewed session sk.dataDir u sidecar i (shardOn sinks i) (disks i) (left r i)
  value : if (∀ j, u.faults.makeDir j = none) ∧
      ∀ j, u.faults.renamePart j = none ∧ u.faults.writeMeta j = none
    then value r = .ok (u.info ec etag) else ∃ e, value r = .error e

/-- An attempt stops before its commit, or it commits. -/
def Outcome (session : String) (sk : SessionKey) (u : PartUpload n) (disks : Disks n)
    (r : EStateM.Result StorageError (Disks n) ObjectPartInfo) : Prop :=
  ((∀ i, Aside (partsDir session sk.dataDir) (stagingDir u.stagingId) (disks i) (left r i)) ∧
      ∃ e, value r = .error e) ∨
    ∃ ec etag sinks sidecar, Erasure.new sk.dataBlocks.toNat sk.parityBlocks.toNat = .ok ec ∧
      u.encode md5 rs ec = .ok (etag,sinks) ∧ sidecars.encode (u.info ec etag) = .ok sidecar ∧
      Committed session sk u ec etag sinks sidecar disks r

variable {α : Type} {session dataDir : String} {sk : SessionKey} {u : PartUpload n}
  {sidecar : Bytes} {shard : Bytes} {i : Fin n}

theorem renewed_of_placed {t s : Disk}
    (h : Placed session dataDir u sidecar (∀ j, u.faults.makeDir j = none) i shard t s) :
    Renewed session dataDir u sidecar i shard t s := by
  constructor
  case room => exact h.room
  case partEntry => exact h.partEntry
  case metaEntry => exact h.metaEntry
  case vol =>
    apply Or.inl
    apply h.other <;> simp [partsDir, filePath, stagingDir, stagingVol, multipartVol]
  case other =>
    intro q hq hpart hmeta
    apply h.other q hq.way hpart hmeta
    rintro rfl
    exact hq.below (List.prefix_append _ _)

theorem Renewed.aside {t s s' : Disk}
    (h : Renewed session dataDir u sidecar i shard t s)
    (h' : Aside (partsDir session dataDir) (stagingDir u.stagingId) s s') : Renewed session dataDir u sidecar i shard t s' := by
  constructor
  case room => exact h'.roomy h.room
  case partEntry => rw [h'.off _ (off_entry _ _ _ _ []), h.partEntry]
  case metaEntry => rw [h'.off _ (off_entry _ _ _ _ []), h.metaEntry]
  case vol =>
    rcases h'.way _ (.inr List.prefix_rfl) with he | hd
    · rw [he]
      exact h.vol
    · exact .inr hd
  case other =>
    intro q hq hpart hmeta
    rw [h'.off q hq, h.other q hq hpart hmeta]

theorem Renewed.after {t t' s : Disk}
    (h : Renewed session dataDir u sidecar i shard t' s)
    (h' : Aside (partsDir session dataDir) (stagingDir u.stagingId) t t') : Renewed session dataDir u sidecar i shard t s := by
  constructor
  case room => exact h.room
  case partEntry => rw [h.partEntry, h'.off _ (off_entry _ _ _ _ [])]
  case metaEntry => rw [h.metaEntry, h'.off _ (off_entry _ _ _ _ [])]
  case vol =>
    rcases h.vol with he | hd
    · rw [he]
      exact h'.way _ (.inr List.prefix_rfl)
    · exact .inr hd
  case other =>
    intro q hq hpart hmeta
    rw [h.other q hq hpart hmeta, h'.off q hq]

theorem run_storePart (ec : Erasure) (disks d : Disks n) (etag : String) (sidecar : Bytes)
    (hstage : (stagePart md5 rs bucket u ec).run disks = .ok etag d)
    (hside : sidecars.encode (u.info ec etag) = .ok sidecar) (hlock : u.faults.lock = .ok ()) :
    (storePart sidecars md5 rs bucket key uploadId u ec dataDir).run disks =
      ((placePart bucket u (sessionPath bucket key uploadId) dataDir sidecar).run >>=
        fun _ => pure (u.info ec etag)) d := by
  rw [storePart, Prog.run_bind, bind_of_ok hstage]
  simp only [hside, hlock, Except.mapError]
  show ((Prog.withLock _ _ >>= _ : Op n ObjectPartInfo)).run d = _
  rw [Prog.run_bind, Prog.run_withLock]
  rfl

variable {ec : Erasure} {etag : String}

theorem storePart_committed (hdd : FileName sk.dataDir) (hid : FileName u.stagingId)
    (disks d : Disks n)
    (hroom : ∀ i, Roomy (partsDir (sessionPath bucket key uploadId) sk.dataDir) (disks i))
    (hstage : (stagePart md5 rs bucket u ec).run disks = .ok etag d)
    (hside : sidecars.encode (u.info ec etag) = .ok sidecar) (hlock : u.faults.lock = .ok ()) :
    ∃ sinks, u.encode md5 rs ec = .ok (etag,sinks) ∧
      Committed (sessionPath bucket key uploadId) sk u ec etag sinks sidecar disks
        ((storePart sidecars md5 rs bucket key uploadId u ec sk.dataDir).run disks) := by
  have hquiet := (stagePart_quiet md5 rs bucket u ec hid (sessionPath bucket key uploadId)
    sk.dataDir).aside disks
  rw [hstage] at hquiet
  obtain ⟨sinks,henc,htmp⟩ := stagePart_ok md5 rs bucket u ec disks d etag hstage
  obtain ⟨hplaced,hok⟩ := placePart_placed bucket sidecar hdd hid d
    (fun i => (hquiet i).roomy (hroom i)) (shardOn sinks)
    (fun i => by rw [← filePath_tmp u hid]; exact htmp i)
  refine ⟨sinks,henc,?_⟩
  rw [run_storePart sidecars md5 rs bucket key uploadId ec disks d etag sidecar hstage hside hlock]
  cases hr : (placePart bucket u (sessionPath bucket key uploadId) sk.dataDir sidecar).run d with
  | ok y s =>
    rw [hr] at hplaced hok
    rw [bind_of_ok hr]
    refine ⟨fun i => (renewed_of_placed (hplaced i)).after (hquiet i),?_⟩
    rw [if_pos (hok.mp rfl)]
    rfl
  | error e s =>
    rw [hr] at hplaced hok
    rw [bind_of_error hr]
    refine ⟨fun i => (renewed_of_placed (hplaced i)).after (hquiet i),?_⟩
    rw [if_neg fun h => by cases hok.mpr h]
    exact ⟨e,rfl⟩

theorem storePart_outcome (hec : Erasure.new sk.dataBlocks.toNat sk.parityBlocks.toNat = .ok ec)
    (hdd : FileName sk.dataDir) (hid : FileName u.stagingId) (disks : Disks n)
    (hroom : ∀ i, Roomy (partsDir (sessionPath bucket key uploadId) sk.dataDir) (disks i)) :
    Outcome sidecars md5 rs (sessionPath bucket key uploadId) sk u disks
      ((storePart sidecars md5 rs bucket key uploadId u ec sk.dataDir).run disks) := by
  have hquiet := (stagePart_quiet md5 rs bucket u ec hid (sessionPath bucket key uploadId)
    sk.dataDir).aside disks
  cases hstage : (stagePart md5 rs bucket u ec).run disks with
  | error e d =>
    rw [hstage] at hquiet
    rw [storePart, Prog.run_bind, bind_of_error hstage]
    exact .inl ⟨hquiet,e,rfl⟩
  | ok etag d =>
    rw [hstage] at hquiet
    cases hside : sidecars.encode (u.info ec etag) with
    | error e =>
      rw [storePart, Prog.run_bind, bind_of_ok hstage]
      simp only [hside, Except.mapError]
      exact .inl ⟨hquiet,_,rfl⟩
    | ok sidecar =>
      cases hlock : u.faults.lock with
      | error e =>
        rw [storePart, Prog.run_bind, bind_of_ok hstage]
        simp only [hside, hlock, Except.mapError]
        exact .inl ⟨hquiet,e,rfl⟩
      | ok x =>
        obtain ⟨sinks,henc,h⟩ := storePart_committed sidecars md5 rs bucket key uploadId hdd hid
          disks d hroom hstage hside hlock
        exact .inr ⟨ec,etag,sinks,sidecar,hec,henc,hside,h⟩

theorem aside_orCleanup (session dataDir : String) (hid : FileName u.stagingId)
    (r : EStateM.Result StorageError (Disks n) ObjectPartInfo) :
    (∀ i, Aside (partsDir session dataDir) (stagingDir u.stagingId) (left r i)
      (left ((orCleanup u (value r)).run (left r)) i)) ∧
    value ((orCleanup u (value r)).run (left r)) = value r := by
  cases r with
  | ok info d => exact ⟨fun i => Aside.refl _ _ _,rfl⟩
  | error e d =>
    exact ⟨fun i => (quiet_attempt (u.faults.cleanup i) (quiet_cleanup u hid)).aside (d i),rfl⟩

variable {r : EStateM.Result StorageError (Disks n) ObjectPartInfo} {sinks : List (PartSink n)}

theorem Committed.cleanup {disks : Disks n}
    (hid : FileName u.stagingId) (h : Committed session sk u ec etag sinks sidecar disks r) :
    Committed session sk u ec etag sinks sidecar disks
      ((orCleanup u (Lib.Effects.value r)).run (left r)) := by
  obtain ⟨haside,hvalue⟩ := aside_orCleanup session sk.dataDir hid r
  exact ⟨fun i => (h.renewed i).aside (haside i),by rw [hvalue]; exact h.value⟩

theorem Committed.after {disks d : Disks n}
    (haside : ∀ i, Aside (partsDir session sk.dataDir) (stagingDir u.stagingId) (disks i) (d i))
    (h : Committed session sk u ec etag sinks sidecar d r) :
    Committed session sk u ec etag sinks sidecar disks r :=
  ⟨fun i => (h.renewed i).after (haside i),h.value⟩

theorem orCleanup_outcome (hid : FileName u.stagingId) (disks : Disks n)
    (r : EStateM.Result StorageError (Disks n) ObjectPartInfo)
    (h : Outcome sidecars md5 rs session sk u disks r) :
    Outcome sidecars md5 rs session sk u disks ((orCleanup u (value r)).run (left r)) := by
  rcases h with ⟨h,hval⟩ | ⟨ec,etag,sinks,sidecar,hec,henc,hside,h⟩
  · obtain ⟨haside,hvalue⟩ := aside_orCleanup session sk.dataDir hid r
    exact .inl ⟨fun i => (h i).trans (haside i),by rw [hvalue]; exact hval⟩
  · exact .inr ⟨ec,etag,sinks,sidecar,hec,henc,hside,h.cleanup hid⟩

theorem aside_outcome {p : Op n α} {f : α → Op n ObjectPartInfo} (disks : Disks n)
    (hp : QuietOp (partsDir session sk.dataDir) (stagingDir u.stagingId) p)
    (hf : ∀ a d, p.run disks = .ok a d →
      Outcome sidecars md5 rs session sk u d ((f a).run d)) :
    Outcome sidecars md5 rs session sk u disks ((p >>= f).run disks) := by
  have haside := hp.aside disks
  rw [Prog.run_bind]
  cases hr : p.run disks with
  | error e d =>
    rw [hr] at haside
    rw [bind_of_error hr]
    exact .inl ⟨haside,e,rfl⟩
  | ok a d =>
    rw [hr] at haside
    rw [bind_of_ok hr]
    rcases hf a d hr with ⟨h,e⟩ | ⟨ec,etag,sinks,sidecar,hec,henc,hside,h⟩
    · exact .inl ⟨fun i => (haside i).trans (h i),e⟩
    · exact .inr ⟨ec,etag,sinks,sidecar,hec,henc,hside,h.after haside⟩

/-- What an attempt does to the session it reads, whichever of its calls fail. -/
theorem uploadPart_outcome (hid : FileName u.stagingId) (disks : Disks n)
    (hmaj : Majority c (sessionPath bucket key uploadId) sk disks)
    (hroom : ∀ i, Roomy (partsDir (sessionPath bucket key uploadId) sk.dataDir) (disks i)) :
    Outcome sidecars md5 rs (sessionPath bucket key uploadId) sk u disks
      ((uploadPart c sidecars md5 rs bucket key uploadId u).run disks) := by
  rw [uploadPart]
  apply aside_outcome _ _ _ _ (quietOp_ofExcept _)
  intro _ d hd
  obtain ⟨-,rfl⟩ := (lift_eq_ok _ _ _ _).mp hd
  apply aside_outcome _ _ _ _ (quietOp_ofExcept _)
  intro _ d hd
  obtain ⟨-,rfl⟩ := (lift_eq_ok _ _ _ _).mp hd
  apply aside_outcome _ _ _ _ (readSessionFi_quiet c _ _ _ _ _)
  intro fi d hd
  obtain ⟨hmaj',hne⟩ := readSessionFi_ok c _ _ _ _ fi hd
  obtain rfl := hmaj.unique c hmaj'
  have haside := (readSessionFi_quiet c (stagingDir u.stagingId) (sessionPath bucket key uploadId)
    fi.dataDir (sessionPath bucket key uploadId) u.faults.session).aside disks
  rw [hd] at haside
  apply aside_outcome _ _ _ _ (quietOp_ofExcept _)
  intro ec d' hd'
  obtain ⟨hec,rfl⟩ := (lift_eq_ok _ _ _ _).mp hd'
  rw [erasureOf, mapError_eq_ok] at hec
  rw [Prog.run_andThen]
  exact orCleanup_outcome _ _ _ hid _ _ (storePart_outcome _ _ _ _ _ _ hec (hmaj.fileName c hne)
    hid d fun i => (haside i).roomy (hroom i))

theorem off_metaPath (session dataDir id : String) (hname : dataDir ≠ metaFilename) :
    Off (partsDir session dataDir) (stagingDir id) (metaPath multipartVol session) := by
  constructor
  case way =>
    intro h
    have heq := h.eq_of_length (by simp [metaPath, partsDir])
    rw [metaPath, partsDir, List.append_right_inj] at heq
    exact hname (by simpa using heq.symm)
  case above => simp [metaPath, filePath, multipartVol, stagingDir, stagingVol]
  case below => simp [metaPath, filePath, multipartVol, stagingDir, stagingVol]

section Kept

variable {disks : Disks n} {r : EStateM.Result StorageError (Disks n) ObjectPartInfo}
  {sidecars md5 rs} (h : Outcome sidecars md5 rs session sk u disks r)

include h

theorem Outcome.other (i : Fin n) (q : Path) (hq : Off (partsDir session sk.dataDir) (stagingDir u.stagingId) q)
    (hpart : q ≠ partsDir session sk.dataDir ++ [partName u.partNumber])
    (hmeta : q ≠ partsDir session sk.dataDir ++ [metaName u.partNumber]) :
    look (left r i) q = look (disks i) q := by
  rcases h with ⟨haside,-⟩ | ⟨_,_,_,_,-,-,-,hnew⟩
  · exact (haside i).off q hq
  · exact (hnew.renewed i).other q hq hpart hmeta

theorem Outcome.roomy (hroom : ∀ i, Roomy (partsDir session sk.dataDir) (disks i)) (i : Fin n) :
    Roomy (partsDir session sk.dataDir) (left r i) := by
  rcases h with ⟨haside,-⟩ | ⟨_,_,_,_,-,-,-,hnew⟩
  · exact (haside i).roomy (hroom i)
  · exact (hnew.renewed i).room

theorem Outcome.majority (hmaj : Majority c session sk disks) :
    Majority c session sk (left r) := by
  have hname : sk.dataDir ≠ metaFilename := by
    by_cases hne : sk.dataDir = ""
    · rw [hne]
      decide
    · obtain ⟨u,hu⟩ := hmaj.dataDir c hne
      rw [hu]
      exact VersionIds.formatUuidHex_ne u _ (by decide)
  have hkey : ∀ i, keyOn c session (left r i) = keyOn c session (disks i) := by
    intro i
    have hlen : ∀ x, metaPath multipartVol session ≠ partsDir session sk.dataDir ++ [x] := by
      intro x heq
      have := congrArg List.length heq
      simp [metaPath, partsDir] at this
    rw [keyOn, h.other i _ (off_metaPath session _ _ hname) (hlen _) (hlen _), keyOn]
  rw [Majority, filterMap_ofFn_congr hkey]
  exact hmaj

end Kept

end Outcome

section Runs

variable (sidecars : Rmp ObjectPartInfo) (md5 : Bytes → Bytes) (rs : ReedSolomon)
  (bucket key uploadId : String)

/-- Attempts on a session, one after the other, each of which meets a condition. -/
inductive Attempts (ok : PartUpload n → Disks n → Prop) (start : Disks n) :
    List (PartUpload n) → Disks n → Prop
  | start : Attempts ok start [] start
  | next {us : List (PartUpload n)} {disks : Disks n} (u : PartUpload n) :
      Attempts ok start us disks → FileName u.stagingId → ok u disks →
      Attempts ok start (us ++ [u])
        (left ((uploadPart c sidecars md5 rs bucket key uploadId u).run disks))

structure Fresh (dir : Path) (t : Disk) : Prop where
  way : Passable t dir
  empty : ∀ x, look t (dir ++ [x]) = none

theorem fresh_of_absent (t : Disk) (p : Path) (x : String) (hdir : look t p = some .dir)
    (habsent : look t (p ++ [x]) = none) : Fresh (p ++ [x]) t := by
  constructor
  · intro q hq
    rcases List.prefix_concat_iff.mp hq with rfl | hq
    · exact .inl habsent
    · exact passable_of_dir t p hdir q hq
  · intro y
    exact look_below_none t _ habsent [y]

theorem Fresh.roomy {dir : Path} {t : Disk} (h : Fresh dir t) : Roomy dir t :=
  ⟨h.way,fun a => by rw [h.empty]; simp,fun a => by rw [h.empty]; simp⟩

variable {c sidecars md5 rs bucket key uploadId} {ok : PartUpload n → Disks n → Prop}
  {start disks : Disks n} {us : List (PartUpload n)} {sk : SessionKey}

theorem Attempts.session (h : Attempts c sidecars md5 rs bucket key uploadId ok start us disks)
    (hmaj : Majority c (sessionPath bucket key uploadId) sk start)
    (hroom : ∀ i, Roomy (partsDir (sessionPath bucket key uploadId) sk.dataDir) (start i)) :
    Majority c (sessionPath bucket key uploadId) sk disks ∧
      ∀ i, Roomy (partsDir (sessionPath bucket key uploadId) sk.dataDir) (disks i) := by
  induction h with
  | start => exact ⟨hmaj,hroom⟩
  | next u _ hid _ ih =>
    have hout := uploadPart_outcome c sidecars md5 rs bucket key uploadId hid _ ih.1 ih.2
    exact ⟨hout.majority c ih.1,hout.roomy ih.2⟩

end Runs

end Openlake.PartRuns
