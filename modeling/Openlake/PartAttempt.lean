import Openlake.PartCommit

/-!
# An attempt to upload a part

Before it takes the lock, an attempt reads the session and writes to its staging
directory. `Aside` is what that does to the rest of the disk: nothing, except that
directories on the way to the session may be made.
-/

set_option autoImplicit false

namespace Openlake.PartAttempt
open Openlake.Types XlMeta LocalFs Promote Ops Ec Multipart PartFiles PartCommit Lib.FileTree
open Lib.Effects Lib.FanOut Lib.Outcomes

/-- Neither on the way to the directory nor in or above the staging directory. -/
structure Off (dir staging q : Path) : Prop where
  way : ¬q <+: dir
  above : ¬q <+: staging
  below : ¬staging <+: q

structure Aside (dir staging : Path) (t s : Disk) : Prop where
  way : ∀ q, q <+: dir ∨ q <+: [stagingVol] → look s q = look t q ∨ look s q = some .dir
  off : ∀ q, Off dir staging q → look s q = look t q

theorem Aside.refl (dir staging : Path) (t : Disk) : Aside dir staging t t :=
  ⟨fun _ _ => .inl rfl,fun _ _ => rfl⟩

theorem Aside.trans {dir staging : Path} {t s r : Disk} (h : Aside dir staging t s)
    (h' : Aside dir staging s r) : Aside dir staging t r := by
  constructor
  · intro q hq
    rcases h'.way q hq with he | hd
    · rw [he]
      exact h.way q hq
    · exact .inr hd
  · intro q hq
    rw [h'.off q hq, h.off q hq]

theorem off_entry (session dataDir id x : String) (r : Path) :
    Off (partsDir session dataDir) (stagingDir id) (partsDir session dataDir ++ x::r) := by
  refine ⟨?_,?_,?_⟩
  · intro h
    have := h.length_le
    simp at this
  · simp [partsDir, filePath, stagingDir, stagingVol, multipartVol]
  · simp [partsDir, filePath, stagingDir, stagingVol, multipartVol]

theorem Aside.roomy {session dataDir id : String} {t s : Disk}
    (h : Aside (partsDir session dataDir) (stagingDir id) t s)
    (hroom : Roomy (partsDir session dataDir) t) : Roomy (partsDir session dataDir) s := by
  have hentry : ∀ x, look s (partsDir session dataDir ++ [x]) =
      look t (partsDir session dataDir ++ [x]) := fun x => h.off _ (off_entry _ _ _ x [])
  constructor
  · intro q hq
    rcases h.way q (.inl hq) with he | hd
    · rw [he]
      exact hroom.way q hq
    · exact .inr hd
  · intro a
    rw [hentry]
    exact hroom.part a
  · intro a
    rw [hentry]
    exact hroom.sidecar a

/-- A computation after which the session is as before, whatever its outcome. -/
structure Quiet {α : Type} (dir staging : Path) (x : Fs α) : Prop where
  aside : ∀ t, Aside dir staging t (left (x t))

section Quiet

variable {α β : Type} {dir staging : Path}

theorem quiet_bind {x : Fs α} {f : α → Fs β} (hx : Quiet dir staging x) (hf : ∀ a, Quiet dir staging (f a)) :
    Quiet dir staging (x >>= f) := by
  constructor
  intro t
  have h := hx.aside t
  cases hr : x t with
  | ok a s =>
    rw [hr] at h
    rw [bind_of_ok hr]
    exact h.trans ((hf a).aside s)
  | error e s =>
    rw [hr] at h
    rw [bind_of_error hr]
    exact h

theorem quiet_lift (x : Except IoError α) : Quiet dir staging (lift x : Fs α) := by
  constructor
  intro t
  cases x <;> exact Aside.refl dir staging t

theorem quiet_probe (f : Disk → Except IoError α) : Quiet dir staging (probe f) :=
  ⟨fun t => (quiet_lift (f t)).aside t⟩

theorem quiet_change {f : Disk → Except IoError Disk} (h : ∀ t s, f t = .ok s → Aside dir staging t s) :
    Quiet dir staging (change f) := by
  constructor
  intro t
  rw [change]
  cases hf : f t with
  | ok s => exact h t s hf
  | error e => exact Aside.refl dir staging t

theorem quiet_attempt {x : Fs α} (fault : Option IoError) (h : Quiet dir staging x) :
    Quiet dir staging (attempt fault x) := by
  cases fault with
  | none => exact h
  | some e => exact quiet_lift (.error e)

theorem aside_grown {p : Path} {t s : Disk} (hp : p <+: dir ∨ p <+: staging) (h : Grown p t s) :
    Aside dir staging t s := by
  constructor
  · intro q _
    rw [(h q).1]
    split_ifs
    · exact .inr rfl
    · exact .inl rfl
  · intro q hq
    rw [(h q).1, if_neg]
    intro hqp
    rcases hp with hp | hp
    · exact hq.way (hqp.trans hp)
    · exact hq.above (hqp.trans hp)

theorem quiet_createDirs (p : Path) (hp : p <+: dir ∨ p <+: staging) :
    Quiet dir staging (createDirs p) := by
  apply quiet_change
  intro t s h
  rw [mapError_eq_ok] at h
  exact aside_grown hp (look_createDirAll t s p h)

theorem quiet_requireVol (volume : String) (hp : [volume] <+: dir ∨ [volume] <+: staging) :
    Quiet dir staging (requireVol volume) := by
  rw [requireVol]
  split_ifs
  · exact quiet_createDirs _ hp
  · exact quiet_probe _

theorem aside_written {session dataDir id x : String} {bytes : Bytes} {t s : Disk}
    (h : ∀ q, look s q = if q = stagingDir id ++ [x] then some (.file bytes) else look t q) :
    Aside (partsDir session dataDir) (stagingDir id) t s := by
  constructor
  · intro q hq
    rw [h, if_neg]
    · exact .inl rfl
    · rintro rfl
      simp [partsDir, filePath, stagingDir, stagingVol, multipartVol] at hq
  · intro q hq
    rw [h, if_neg]
    rintro rfl
    exact hq.below (List.prefix_append _ _)

end Quiet

section Attempt

variable {session dataDir : String}

theorem quiet_readVersion (c : MetaCodec) (staging : Path) (path : String) (id : Option String)
    (data : Bool) :
    Quiet (partsDir session dataDir) staging (readVersion c multipartVol path id data) := by
  apply quiet_bind (quiet_requireVol _ (.inl (vol_above_partsDir session dataDir)))
  intro _
  apply quiet_bind (quiet_probe _)
  intro _
  exact quiet_lift _

theorem vol_above_stagingDir (id : String) : [stagingVol] <+: stagingDir id := by simp [stagingDir]

variable {n : ℕ} (u : PartUpload n) (hid : FileName u.stagingId)

include hid

theorem quiet_createFileWriter :
    Quiet (partsDir session dataDir) (stagingDir u.stagingId)
      (createFileWriter stagingVol u.tmpPath) := by
  rw [createFileWriter, filePath_tmp u hid]
  apply quiet_bind (quiet_requireVol _ (.inr (vol_above_stagingDir _)))
  intro _
  apply quiet_bind (quiet_createDirs _ (.inr (by simp)))
  intro _
  apply quiet_change
  intro t s h
  rw [mapError_eq_ok] at h
  exact aside_written (look_writeFile [] t s _ h)

theorem quiet_finishFile (expected : ℕ) (written : Bytes) :
    Quiet (partsDir session dataDir) (stagingDir u.stagingId)
      (finishFile stagingVol u.tmpPath expected written) := by
  rw [finishFile, filePath_tmp u hid]
  apply quiet_bind (quiet_lift _)
  intro _
  apply quiet_change
  intro t s h
  rw [mapError_eq_ok] at h
  exact aside_written (look_writeFile written t s _ h)

theorem quiet_cleanup :
    Quiet (partsDir session dataDir) (stagingDir u.stagingId)
      (delete stagingVol u.stagingId true) := by
  constructor
  intro t
  have hdir : filePath stagingVol u.stagingId = stagingDir u.stagingId := by
    rw [filePath, segments_name _ hid, stagingDir]
  rcases delete_left stagingVol u.stagingId true t with hsame | ⟨s,hgrown,hs⟩
  · rw [hsame]
    exact Aside.refl _ _ t
  · rw [hdir] at hs
    apply (aside_grown (.inr (vol_above_stagingDir _)) hgrown).trans
    constructor
    · intro q hq
      rw [hs q]
      · exact .inl rfl
      · intro hpre
        rcases hq with hq | hq
        · have := hpre.trans hq
          simp [partsDir, filePath, stagingDir, stagingVol, multipartVol] at this
        · simpa [stagingDir] using (hpre.trans hq).length_le
    · intro q hq
      exact hs q hq.below

end Attempt

/-- An operation after which the session is as before on every disk. -/
structure QuietOp {n : ℕ} {α : Type} (dir staging : Path) (p : Op n α) : Prop where
  aside : ∀ disks i, Aside dir staging (disks i) (left (p.run disks) i)

section Programs

variable {n : ℕ} {α β : Type} {dir staging : Path}

theorem quietOp_bind {p : Op n α} {f : α → Op n β} (hp : QuietOp dir staging p)
    (hf : ∀ a, QuietOp dir staging (f a)) : QuietOp dir staging (p >>= f) := by
  constructor
  intro disks i
  have h := hp.aside disks i
  rw [Prog.run_bind]
  cases hr : p.run disks with
  | ok a s =>
    rw [hr] at h
    rw [bind_of_ok hr]
    exact h.trans ((hf a).aside s i)
  | error e s =>
    rw [hr] at h
    rw [bind_of_error hr]
    exact h

theorem quietOp_ofExcept (r : Except StorageError α) : QuietOp dir staging (Prog.ofExcept r : Op n α) := by
  constructor
  intro disks i
  rw [Prog.run_ofExcept]
  cases r <;> exact Aside.refl dir staging _

theorem quietOp_onDisks (faults : Fin n → Option IoError) (call : Fin n → Fs α)
    (h : ∀ i, Quiet dir staging (call i)) : QuietOp dir staging (onDisks faults call) := by
  constructor
  intro disks i
  exact (quiet_attempt (faults i) (h i)).aside (disks i)

variable (md5 : Bytes → Bytes) (rs : ReedSolomon) (bucket : String) (u : PartUpload n) (ec : Erasure)

theorem stagePart_quiet (hid : FileName u.stagingId) (session dataDir : String) :
    QuietOp (partsDir session dataDir) (stagingDir u.stagingId) (stagePart md5 rs bucket u ec) := by
  apply quietOp_bind (quietOp_onDisks _ _ fun i => quiet_createFileWriter u hid)
  intro _
  apply quietOp_bind (quietOp_ofExcept _)
  intro _
  apply quietOp_bind (quietOp_ofExcept _)
  rintro ⟨etag,sinks⟩
  apply quietOp_bind (quietOp_onDisks _ _ fun i => quiet_finishFile u hid _ _)
  intro _
  apply quietOp_bind (quietOp_ofExcept _)
  intro _
  exact quietOp_ofExcept (.ok etag)

def shardOn (sinks : List (PartSink n)) (i : Fin n) : Bytes :=
  (sinks[i.val]?.map PartSink.written).getD []

theorem finishFile_ok (path : String) (expected : ℕ) (written : Bytes) (t s : Disk) (x : Unit)
    (h : finishFile stagingVol path expected written t = .ok x s) :
    look s (filePath stagingVol path) = some (.file written) := by
  rw [finishFile, run_bind_eq_ok] at h
  obtain ⟨_,t₁,-,h⟩ := h
  rw [overwrite_ok written _ t₁ s x h, if_pos rfl]

theorem quorumOf_ok (results : Fin n → Except IoError α) (disks disks' : Disks n) (x : Unit)
    (h : (quorumOf bucket results).run disks = .ok x disks') :
    disks' = disks ∧ ∀ i, failureOf (results i) = none := by
  by_cases hall : ∀ i, failureOf (results i) = none
  · rw [(run_quorumOf bucket results disks).1 hall] at h
    cases h
    exact ⟨rfl,hall⟩
  · obtain ⟨e,he⟩ := (run_quorumOf bucket results disks).2 hall
    rw [he] at h
    cases h

/-- A part that is staged is encoded, and its shards are in the staging files. -/
theorem stagePart_ok (disks disks' : Disks n) (etag : String)
    (h : (stagePart md5 rs bucket u ec).run disks = .ok etag disks') :
    ∃ sinks, u.encode md5 rs ec = .ok (etag,sinks) ∧
      ∀ i, look (disks' i) (filePath stagingVol u.tmpPath) = some (.file (shardOn sinks i)) := by
  rw [stagePart, Prog.run_bind, bind_of_ok (run_onDisks _ _ disks), Prog.run_bind,
    run_bind_eq_ok] at h
  obtain ⟨_,d₁,-,h⟩ := h
  rw [Prog.run_bind, run_bind_eq_ok] at h
  obtain ⟨⟨etag',sinks⟩,d₂,henc,h⟩ := h
  rw [Prog.run_ofExcept, lift_eq_ok, mapError_eq_ok] at henc
  rw [Prog.run_bind, bind_of_ok (run_onDisks _ _ d₂), Prog.run_bind, run_bind_eq_ok] at h
  obtain ⟨_,d₃,hq,h⟩ := h
  obtain ⟨rfl,hall⟩ := quorumOf_ok bucket _ _ _ _ hq
  obtain ⟨he,hd⟩ := (pure_eq_ok etag' etag _ disks').mp h
  subst he hd
  refine ⟨sinks,henc.1,fun i => ?_⟩
  have hi := hall i
  cases hr : attempt (u.faults.finish i) (finishFile stagingVol u.tmpPath
      (u.stripes ec*Records.defaultEcPerShardBytes) (shardOn sinks i)) (d₂ i) with
  | error e s =>
    rw [shardOn] at hr
    rw [hr] at hi
    cases hi
  | ok x s =>
    show look (left (attempt _ (finishFile _ _ _ (shardOn sinks i)) _)) _ = _
    rw [hr]
    cases hf : u.faults.finish i with
    | some e => rw [hf] at hr; cases hr
    | none =>
      rw [hf] at hr
      exact finishFile_ok _ _ _ _ _ _ hr

end Programs

end Openlake.PartAttempt
