import Openlake.PartEncoding
import Openlake.PartRuns

/-!
# An attempt that gets as far as its commit

If no call before the commit fails and nothing is in the way of the staging
file, the attempt puts its part in place. What it leaves in the staging volume
is its own staging directory, so the next attempt finds the same room.
-/

set_option autoImplicit false

namespace Openlake.PartStaged
open Openlake.Types XlMeta LocalFs Promote Ops Ec StripeWriter Records Multipart PartFiles
open PartCommit PartAttempt PartEncoding Sessions PartRuns Lib.FileTree Lib.Effects Lib.FanOut

variable {n : ℕ} {α : Type}

structure Ready (u : PartUpload n) (t : Disk) : Prop where
  way : Passable t (stagingDir u.stagingId)
  entry : look t (stagingDir u.stagingId ++ [partName u.partNumber]) ≠ some .dir

theorem Ready.congr {u : PartUpload n} {t s : Disk} (h : Ready u t)
    (hroot : look s [] = none ∨ look s [] = some .dir)
    (hvol : look s [stagingVol] = look t [stagingVol] ∨ look s [stagingVol] = some .dir)
    (hbelow : ∀ q, stagingDir u.stagingId <+: q → look s q = look t q) : Ready u s := by
  constructor
  case way =>
    intro q hq
    have hcases : q = stagingDir u.stagingId ∨ q = [stagingVol] ∨ q = [] := by
      have hsplit : stagingDir u.stagingId = ([] ++ [stagingVol]) ++ [u.stagingId] := rfl
      rw [hsplit, List.prefix_concat_iff, List.prefix_concat_iff, List.prefix_nil] at hq
      exact hq
    rcases hcases with rfl | rfl | rfl
    · rw [hbelow _ List.prefix_rfl]
      exact h.way _ List.prefix_rfl
    · rcases hvol with he | hd
      · rw [he]
        exact h.way _ (vol_above_stagingDir _)
      · exact .inr hd
    · exact hroot
  case entry =>
    rw [hbelow _ (List.prefix_append _ _)]
    exact h.entry

structure Smooth (u : PartUpload n) : Prop where
  session : ∀ i, u.faults.session i = none
  create : ∀ i, u.faults.create i = none
  writeAll : ∀ k i, u.faults.writeAll k i = none
  finish : ∀ i, u.faults.finish i = none
  lock : u.faults.lock = .ok ()

theorem run_onDisks_ok (faults : Fin n → Option IoError) (call : Fin n → Fs α) (disks : Disks n)
    (hfaults : ∀ i, faults i = none) (a : Fin n → α) (d : Disks n)
    (h : ∀ i, call i (disks i) = .ok (a i) (d i)) :
    (onDisks faults call).run disks = .ok (fun i => .ok (a i)) d := by
  rw [run_onDisks]
  simp only [hfaults, attempt, h]
  rfl

theorem firstFailure_ok (a : Fin n → α) : firstFailure (fun i => .ok (a i)) = .ok () := by
  have hnone : (List.ofFn (fun i : Fin n => failureOf (.ok (a i)))).findSome? id = none := by
    simp [failureOf]
  rw [firstFailure, hnone]

section Staging

variable (md5 : Bytes → Bytes) (rs : ReedSolomon) (bucket : String) {u : PartUpload n} {ec : Erasure}
  {etag : String} {sinks : List (PartSink n)}

theorem stagePart_staged (hid : FileName u.stagingId) (hsmooth : Smooth u) (disks : Disks n)
    (hready : ∀ i, Ready u (disks i)) (henc : u.encode md5 rs ec = .ok (etag,sinks))
    (hlen : ∀ i, (shardOn sinks i).length = u.stripes ec*defaultEcPerShardBytes) :
    ∃ d, (stagePart md5 rs bucket u ec).run disks = .ok etag d := by
  have hpath := filePath_tmp u hid
  have hmade := fun i => createFileWriter_made stagingVol u.tmpPath (partName u.partNumber)
    (t := disks i) (by decide) hpath (vol_above_stagingDir _) (hready i).way (hready i).entry
  choose d₁ hd₁ hlook₁ using hmade
  have hdone := fun i => finishFile_written stagingVol u.tmpPath (partName u.partNumber)
    (t := d₁ i) (shardOn sinks i) hpath
    (by
      rw [hlook₁, if_neg, if_pos List.prefix_rfl]
      exact fun h => by simpa using congrArg List.length h)
    (by rw [hlook₁, if_pos rfl]; simp)
  choose d₂ hd₂ _ using hdone
  simp only [hlen] at hd₂
  simp only [shardOn] at hd₂
  refine ⟨d₂,?_⟩
  have hfirst : lift ((firstFailure (fun i : Fin n => .ok ())).mapError (mapBucketOrIo bucket)) d₁ =
      .ok () d₁ := by
    rw [firstFailure_ok]
    rfl
  have henc' : lift ((u.encode md5 rs ec).mapError (mapBucketOrIo bucket)) d₁ =
      .ok (etag,sinks) d₁ := by
    rw [henc]
    rfl
  rw [stagePart, Prog.run_bind, bind_of_ok (run_onDisks_ok _ _ _ hsmooth.create _ d₁ hd₁),
    Prog.run_bind, Prog.run_ofExcept, bind_of_ok hfirst, Prog.run_bind, Prog.run_ofExcept,
    bind_of_ok henc', Prog.run_bind, bind_of_ok (run_onDisks_ok _ _ _ hsmooth.finish _ d₂ hd₂),
    Prog.run_bind, bind_of_ok ((run_quorumOf bucket _ _).1 fun i => rfl)]
  rfl

theorem length_shardOn (hmds : Mds rs ec defaultEcPerShardBytes) (hn : n = ec.total)
    (henc : u.encode md5 rs ec = .ok (etag,sinks)) (i : Fin n) :
    (shardOn sinks i).length = u.stripes ec*defaultEcPerShardBytes := by
  obtain ⟨hsize,-,ws,hws,hcols⟩ := encode_inv md5 rs u ec hmds hn etag sinks henc
  have hlen := congrArg List.length hcols
  rw [List.length_map, length_columns _ _ (codewords_total rs ec _ _ _ hws), ← hn] at hlen
  have hi : i.val < sinks.length := by rw [hlen]; exact i.isLt
  have hmem : shardOn sinks i ∈ columns ec.total ws := by
    rw [← hcols, shardOn, List.getElem?_eq_getElem hi]
    exact List.mem_map_of_mem (List.getElem_mem hi)
  rw [length_mem_columns rs ec _ _ ws hws _ hmem, length_stripesOf, hsize, PartUpload.stripes]

theorem off_multipart {session dataDir id : String} {q : Path} (hq : stagingDir id <+: q) :
    Off (partsDir session dataDir) [multipartVol] q := by
  obtain ⟨r,rfl⟩ := hq
  constructor <;> simp [stagingDir, partsDir, filePath, stagingVol, multipartVol]

variable (c : MetaCodec) (sidecars : Rmp ObjectPartInfo) (key uploadId : String) {sk : SessionKey}
  {sidecar : Bytes}

theorem uploadPart_committed (hid : FileName u.stagingId) (hsmooth : Smooth u) (disks : Disks n)
    (hready : ∀ i, Ready u (disks i)) (hnumber : checkPartNumber u.partNumber = .ok ())
    (hbucket : Buckets.validateBucketName bucket = .ok ())
    (hmaj : Majority c (sessionPath bucket key uploadId) sk disks) (hne : sk.dataDir ≠ "")
    (hec : Erasure.new sk.dataBlocks.toNat sk.parityBlocks.toNat = .ok ec)
    (hroom : ∀ i, Roomy (partsDir (sessionPath bucket key uploadId) sk.dataDir) (disks i))
    (hmds : Mds rs ec defaultEcPerShardBytes) (hn : n = ec.total)
    (henc : u.encode md5 rs ec = .ok (etag,sinks))
    (hside : sidecars.encode (u.info ec etag) = .ok sidecar) :
    Committed (sessionPath bucket key uploadId) sk u ec etag sinks sidecar disks
      ((uploadPart c sidecars md5 rs bucket key uploadId u).run disks) := by
  obtain ⟨fi,d,hread,hkey⟩ := readSessionFi_found c _ sk disks hmaj hne fun i =>
    Passable.of_prefix (hroom i).way (vol_above_partsDir _ _)
  have haside := (readSessionFi_quiet c (stagingDir u.stagingId) (sessionPath bucket key uploadId)
    sk.dataDir (sessionPath bucket key uploadId) (fun _ => none)).aside disks
  have haside' := (readSessionFi_quiet c [multipartVol] (sessionPath bucket key uploadId)
    sk.dataDir (sessionPath bucket key uploadId) (fun _ => none)).aside disks
  rw [hread] at haside haside'
  have hroom' := fun i => (haside i).roomy (hroom i)
  have hready' : ∀ i, Ready u (d i) := fun i => (hready i).congr ((hroom' i).way _ List.nil_prefix)
    ((haside' i).way _ (.inr List.prefix_rfl))
    (fun q hq => (haside' i).off q (off_multipart hq))
  obtain ⟨d',hstage⟩ := stagePart_staged md5 rs bucket hid hsmooth d hready' henc
    (length_shardOn md5 rs hmds hn henc)
  obtain ⟨sinks',henc',hcommit⟩ := storePart_committed sidecars md5 rs bucket key uploadId
    (hmaj.fileName c hne) hid d d' hroom' hstage hside hsmooth.lock
  obtain rfl : sinks' = sinks := (Prod.mk.inj (Except.ok.inj (henc'.symm.trans henc))).2
  have herasure : erasureOf fi = .ok ec := by
    subst hkey
    exact congrArg (Except.mapError _) hec
  have hdir : fi.dataDir = sk.dataDir := by rw [← hkey]; rfl
  have hrun : (uploadPart c sidecars md5 rs bucket key uploadId u).run disks =
      ((storePart sidecars md5 rs bucket key uploadId u ec sk.dataDir).andThen (orCleanup u)).run
        d := by
    have hfaults : u.faults.session = fun _ => none := funext hsmooth.session
    rw [uploadPart, hnumber, hbucket, hfaults]
    show (readSessionFi c _ _ >>= _ : Op n ObjectPartInfo).run disks = _
    rw [Prog.run_bind, bind_of_ok hread, herasure, hdir]
    rfl
  rw [hrun, Prog.run_andThen]
  exact (hcommit.cleanup hid).after haside

theorem ready_next {disks : Disks n} {r : EStateM.Result StorageError (Disks n) ObjectPartInfo}
    {session : String} (h : Committed session sk u ec etag sinks sidecar disks r)
    {u' : PartUpload n} (hne : u'.stagingId ≠ u.stagingId) (hready : ∀ i, Ready u' (disks i))
    (i : Fin n) : Ready u' (left r i) := by
  apply (hready i).congr ((h.renewed i).room.way _ List.nil_prefix) (h.renewed i).vol
  rintro q ⟨q,rfl⟩
  apply (h.renewed i).other
  · constructor <;> simp [stagingDir, partsDir, filePath, stagingVol, multipartVol, hne, hne.symm]
  · simp [stagingDir, partsDir, filePath, stagingVol, multipartVol]
  · simp [stagingDir, partsDir, filePath, stagingVol, multipartVol]

end Staging

end Openlake.PartStaged
