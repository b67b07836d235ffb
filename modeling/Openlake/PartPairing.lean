import Openlake.PartStaged
import Openlake.RecordBytes
import Openlake.StripeRoundTrip

/-!
# Sidecars and the parts they describe

A sidecar on a disk should describe the part next to it. An attempt deletes the
old pair before it puts the new one in place and does not ask whether the
deletes succeeded. If the delete of the sidecar fails and the attempt stops
short of the new one, the old sidecar is left with no part, or with a part it
does not describe.
-/

set_option autoImplicit false

namespace Openlake.PartPairing
open Openlake.Types XlMeta LocalFs Promote Ec Multipart PartFiles PartAttempt Sessions PartRuns
open PartStaged Records RecordBytes Streams StripeRoundTrip Lib.FileTree Lib.Effects

section Pairing

variable {n : ℕ} (c : MetaCodec) (sidecars : Rmp ObjectPartInfo) (md5 : Bytes → Bytes)
  (rs : ReedSolomon) (bucket key uploadId session : String) (sk : SessionKey)

/-- The part on disk `i` is the shard of the attempt whose record the sidecar is. -/
def Describes (us : List (PartUpload n)) (i : Fin n) (a : UInt32) (sidecar part : Option (Kind Bytes)) :
    Prop :=
  ∃ bytes, sidecar = some (.file bytes) ∧
    ∃ u ∈ us, u.partNumber = a ∧
      ∃ ec etag sinks, Erasure.new sk.dataBlocks.toNat sk.parityBlocks.toNat = .ok ec ∧
        u.encode md5 rs ec = .ok (etag,sinks) ∧ sidecars.decode bytes = .ok (u.info ec etag) ∧
        part = some (.file (shardOn sinks i))

def Paired (us : List (PartUpload n)) (disks : Disks n) : Prop :=
  ∀ i a, look (disks i) (partsDir session sk.dataDir ++ [metaName a]) ≠ none →
    Describes sidecars md5 rs sk us i a
      (look (disks i) (partsDir session sk.dataDir ++ [metaName a]))
      (look (disks i) (partsDir session sk.dataDir ++ [partName a]))

/-- Where there is a sidecar of the part, its delete succeeds, or a new pair
comes in its place, or the old part stays with it. -/
def Replaces (u : PartUpload n) (disks : Disks n) : Prop :=
  ∀ i, look (disks i) (partsDir session sk.dataDir ++ [metaName u.partNumber]) = none ∨
    u.faults.deleteMeta i = none ∨
    ((∀ j, u.faults.makeDir j = none) ∧ u.faults.renamePart i = none ∧
      u.faults.writeMeta i = none) ∨
    (u.faults.deletePart i ≠ none ∧
      ¬((∀ j, u.faults.makeDir j = none) ∧ u.faults.renamePart i = none))

variable {sidecars md5 rs session sk}

variable {us : List (PartUpload n)}

theorem Describes.mono {i : Fin n} {a : UInt32}
    {sidecar part : Option (Kind Bytes)} (h : Describes sidecars md5 rs sk us i a sidecar part)
    (u : PartUpload n) : Describes sidecars md5 rs sk (us ++ [u]) i a sidecar part := by
  obtain ⟨bytes,hb,v,hv,hrest⟩ := h
  exact ⟨bytes,hb,v,List.mem_append_left _ hv,hrest⟩

theorem paired_next {u : PartUpload n} {disks : Disks n}
    {r : EStateM.Result StorageError (Disks n) ObjectPartInfo}
    (hout : Outcome sidecars md5 rs session sk u disks r) (hrep : Replaces session sk u disks)
    (h : Paired sidecars md5 rs session sk us disks) :
    Paired sidecars md5 rs session sk (us ++ [u]) (left r) := by
  intro i a hsome
  by_cases ha : a = u.partNumber
  · subst ha
    rcases hout with ⟨haside,-⟩ | ⟨ec,etag,sinks,sidecar,hec,henc,hside,hnew⟩
    · have hentry := fun x => (haside i).off _ (off_entry session sk.dataDir u.stagingId x [])
      rw [hentry] at hsome
      rw [hentry, hentry]
      exact (h i _ hsome).mono u
    · have hpart := (hnew.renewed i).partEntry
      have hmeta := (hnew.renewed i).metaEntry
      by_cases hplaced : (∀ j, u.faults.makeDir j = none) ∧ u.faults.renamePart i = none ∧
          u.faults.writeMeta i = none
      · rw [if_pos hplaced] at hmeta
        rw [if_pos ⟨hplaced.1,hplaced.2.1⟩] at hpart
        exact ⟨sidecar,hmeta,u,by simp,rfl,ec,etag,sinks,hec,henc,
          sidecars.round_trip _ _ hside,hpart⟩
      · rw [if_neg hplaced] at hmeta
        by_cases hdel : u.faults.deleteMeta i = none
        · rw [if_pos hdel] at hmeta
          exact absurd hmeta hsome
        · rw [if_neg hdel] at hmeta
          rw [hmeta] at hsome
          rcases hrep i with hno | hno | hno | ⟨hkept,hmoved⟩
          · exact absurd hno hsome
          · exact absurd hno hdel
          · exact absurd hno hplaced
          · rw [if_neg hmoved, if_neg hkept] at hpart
            rw [hmeta, hpart]
            exact (h i _ hsome).mono u
  · have hother : ∀ x, x ≠ partName u.partNumber → x ≠ metaName u.partNumber →
        look (left r i) (partsDir session sk.dataDir ++ [x]) =
          look (disks i) (partsDir session sk.dataDir ++ [x]) := by
      intro x hp hm
      apply hout.other i _ (off_entry _ _ _ _ [])
      · simpa using hp
      · simpa using hm
    have hmeta := hother (metaName a) (partName_ne_metaName _ _).symm
      (fun he => ha (metaName_inj he))
    have hpart := hother (partName a) (fun he => ha (partName_inj he)) (partName_ne_metaName _ _)
    rw [hmeta] at hsome
    rw [hmeta, hpart]
    exact (h i a hsome).mono u

variable (sidecars md5 rs sk)

/-- As long as every attempt replaces the pair of its part, every sidecar
describes the part next to it after each attempt. -/
theorem attempts_paired {start disks : Disks n} {us : List (PartUpload n)}
    (hmaj : Majority c (sessionPath bucket key uploadId) sk start)
    (hfresh : ∀ i, Fresh (partsDir (sessionPath bucket key uploadId) sk.dataDir) (start i))
    (h : Attempts c sidecars md5 rs bucket key uploadId
      (Replaces (sessionPath bucket key uploadId) sk) start us disks) :
    Paired sidecars md5 rs (sessionPath bucket key uploadId) sk us disks := by
  induction h with
  | start =>
    intro i a hsome
    exact absurd ((hfresh i).empty _) hsome
  | next u hrun hid hrep ih =>
    obtain ⟨hmaj',hroom'⟩ := hrun.session hmaj fun i => (hfresh i).roomy
    exact paired_next (uploadPart_outcome c sidecars md5 rs bucket key uploadId hid _ hmaj' hroom')
      hrep ih

end Pairing

def soleRmp {α : Type} [DecidableEq α] (value : α) (bytes : Bytes) : Rmp α where
  encode a := if a = value then .ok bytes else .error "unknown value"
  decode b := if b = bytes then .ok value else .error "unknown bytes"
  round_trip := by
    intro a b h
    split_ifs at h with ha
    · obtain rfl := Except.ok.inj h
      rw [if_pos rfl, ha]

def sampleCall : SessionCall 2 where
  bucketMeta := .ok ⟨1,.unversioned,1,false⟩
  freshVersionId := "11111111-1111-4111-8111-111111111111"
  dataDir := "22222222-2222-4222-8222-222222222222"
  modTimeMs := 1
  uploadId := "up"
  contentType := none
  parityShards := 1
  writeFaults _ := none

def sampleFi (i : ℕ) : FileInfo :=
  indexed (createdFi "bkt/k/up" VersionIds.nullVersionId sampleCall) (defaultErasureInfo 1 1 2) i

def sampleCodec : MetaCodec :=
  tableCodec [recordsOf [sampleFi 0],recordsOf [sampleFi 1]] Lib.Xxh64.xxh64 (by decide +kernel)

def sampleKey : SessionKey := ⟨sampleCall.dataDir,1,1⟩

/-- A session on two disks, one for data and one for parity. -/
def opened : Disks 2 :=
  left ((createMultipartUpload sampleCodec "bkt" "k" sampleCall).run (fun _ => .dir []))

def noFaults : UploadFaults 2 where
  session _ := none
  create _ := none
  writeAll _ _ := none
  finish _ := none
  lock := .ok ()
  deletePart _ := none
  deleteMeta _ := none
  makeDir _ := none
  renamePart _ := none
  writeMeta _ := none
  cleanup _ := none

/-- Disk 0 does not delete the sidecar, and disk 1 does not make the directory. -/
def halfDone : UploadFaults 2 :=
  { noFaults with
    deleteMeta := fun i => if i.val = 0 then some (.io .other "disk 0") else none
    makeDir := fun i => if i.val = 1 then some (.io .other "disk 1") else none }

def byteUpload (stagingId : String) (faults : UploadFaults 2) : PartUpload 2 where
  partNumber := 1
  size := 1
  src := ropeByteStream [[7]]
  modTimeMs := 2
  stagingId := stagingId
  faults := faults

def firstTry : PartUpload 2 := byteUpload "one" noFaults

def secondTry : PartUpload 2 := byteUpload "two" halfDone

def sampleMd5 : Bytes → Bytes := fun _ => [212]

def sampleSidecars : Rmp ObjectPartInfo :=
  soleRmp (firstTry.info mirrorCode "d4") (partBlock (firstTry.info mirrorCode "d4"))

theorem opened_evaluated :
    2 ≤ ((List.ofFn opened).filterMap (keyOn sampleCodec "bkt/k/up")).count sampleKey ∧
    ∀ i, look (opened i) (filePath multipartVol "bkt/k/up") = some .dir ∧
      look (opened i) (partsDir "bkt/k/up" sampleKey.dataDir) = none ∧
      look (opened i) [] = some .dir ∧ look (opened i) [stagingVol] = none := by
  decide +kernel

theorem opened_fresh (i : Fin 2) : Fresh (partsDir "bkt/k/up" sampleKey.dataDir) (opened i) :=
  fresh_of_absent _ _ _ (opened_evaluated.2 i).1 (opened_evaluated.2 i).2.1

theorem ready_of_unstaged {n : ℕ} (u : PartUpload n) (t : Disk) (hroot : look t [] = some .dir)
    (hvol : look t [stagingVol] = none) : Ready u t := by
  have hbelow : ∀ q, look t (stagingVol::q) = none := look_below_none t [stagingVol] hvol
  constructor
  case way =>
    intro q hq
    cases q with
    | nil => exact .inr hroot
    | cons x q =>
      obtain ⟨rfl,-⟩ := List.cons_prefix_cons.mp hq
      exact .inl (hbelow q)
  case entry => simp [stagingDir, hbelow]

theorem opened_ready (stagingId : String) (faults : UploadFaults 2) (i : Fin 2) :
    Ready (byteUpload stagingId faults) (opened i) :=
  ready_of_unstaged _ _ (opened_evaluated.2 i).2.2.1 (opened_evaluated.2 i).2.2.2

theorem firstTry_paired :
    (∀ i, Fresh (partsDir "bkt/k/up" sampleKey.dataDir) (opened i)) ∧
    Paired sampleSidecars sampleMd5 mirror "bkt/k/up" sampleKey [firstTry]
      (left ((uploadPart sampleCodec sampleSidecars sampleMd5 mirror "bkt" "k" "up"
        firstTry).run opened)) :=
  ⟨opened_fresh,
    attempts_paired sampleCodec sampleSidecars sampleMd5 mirror "bkt" "k" "up" sampleKey
      opened_evaluated.1 opened_fresh
      (.next firstTry .start (by decide) fun i => .inl ((opened_fresh i).empty _))⟩

theorem byteUpload_encoded (stagingId : String) (faults : UploadFaults 2)
    (hfaults : ∀ k i, faults.writeAll k i = none) :
    ∃ sinks, (byteUpload stagingId faults).encode sampleMd5 mirror mirrorCode = .ok ("d4",sinks) := by
  obtain ⟨_,sinks,-,henc,-⟩ := PartEncoding.encode_ok sampleMd5 mirror (byteUpload stagingId faults)
    mirrorCode (mirror_mds _) rfl hfaults (Nat.le_refl 1)
  exact ⟨sinks,henc⟩

theorem byteUpload_sidecar (stagingId : String) (faults : UploadFaults 2) :
    sampleSidecars.encode ((byteUpload stagingId faults).info mirrorCode "d4") =
      .ok (partBlock (firstTry.info mirrorCode "d4")) := by
  rw [sampleSidecars]
  exact if_pos rfl

theorem byteUpload_committed (c : MetaCodec) (stagingId : String) (faults : UploadFaults 2)
    (disks : Disks 2) (hid : FileName stagingId) (hsmooth : Smooth (byteUpload stagingId faults))
    (hready : ∀ i, Ready (byteUpload stagingId faults) (disks i))
    (hmaj : Majority c "bkt/k/up" sampleKey disks)
    (hroom : ∀ i, Roomy (partsDir "bkt/k/up" sampleKey.dataDir) (disks i)) :
    ∃ sinks, Committed "bkt/k/up" sampleKey (byteUpload stagingId faults) mirrorCode "d4" sinks
      (partBlock (firstTry.info mirrorCode "d4")) disks ((uploadPart c sampleSidecars sampleMd5 mirror
        "bkt" "k" "up" (byteUpload stagingId faults)).run disks) := by
  obtain ⟨sinks,henc⟩ := byteUpload_encoded stagingId faults hsmooth.writeAll
  exact ⟨sinks,uploadPart_committed sampleMd5 mirror "bkt" c sampleSidecars "k" "up" hid hsmooth disks
    hready rfl (by decide) hmaj (by decide) rfl hroom (mirror_mds _) rfl henc
    (byteUpload_sidecar _ _)⟩

/-- The second attempt deletes the part on disk 0 and leaves the sidecar. -/
theorem secondTry_unpaired :
    Majority sampleCodec "bkt/k/up" sampleKey opened ∧
    (∀ i, Fresh (partsDir "bkt/k/up" sampleKey.dataDir) (opened i)) ∧
    ∃ disks, Attempts sampleCodec sampleSidecars sampleMd5 mirror "bkt" "k" "up" (fun _ _ => True)
        opened [firstTry,secondTry] disks ∧
      ¬Paired sampleSidecars sampleMd5 mirror "bkt/k/up" sampleKey [firstTry,secondTry] disks := by
  refine ⟨opened_evaluated.1,opened_fresh,_,.next secondTry (.next firstTry .start (by decide)
    trivial) (by decide) trivial,?_⟩
  have hrun : Attempts sampleCodec sampleSidecars sampleMd5 mirror "bkt" "k" "up"
      (fun _ _ => True) opened [firstTry] _ := .next firstTry .start (by decide) trivial
  obtain ⟨hmaj,hroom⟩ := hrun.session opened_evaluated.1 fun i => (opened_fresh i).roomy
  obtain ⟨_,hfirst⟩ := byteUpload_committed sampleCodec "one" noFaults opened (by decide)
    ⟨fun _ => rfl,fun _ => rfl,fun _ _ => rfl,fun _ => rfl,rfl⟩ (opened_ready _ _)
    opened_evaluated.1 fun i => (opened_fresh i).roomy
  obtain ⟨_,hsecond⟩ := byteUpload_committed sampleCodec "two" halfDone _ (by decide)
    ⟨fun _ => rfl,fun _ => rfl,fun _ _ => rfl,fun _ => rfl,rfl⟩
    (ready_next hfirst (by decide) (opened_ready _ _)) hmaj hroom
  intro hpaired
  have hmeta := (hsecond.renewed 0).metaEntry
  have hpart := (hsecond.renewed 0).partEntry
  have hmeta₁ := (hfirst.renewed 0).metaEntry
  rw [if_neg (by decide), if_neg (by decide)] at hmeta
  rw [if_neg (by decide), if_pos (by decide)] at hpart
  rw [if_pos (by decide)] at hmeta₁
  have hside := hmeta.trans hmeta₁
  obtain ⟨_,-,_,-,-,_,_,_,-,-,-,hthere⟩ := hpaired 0 1 fun hnone =>
    absurd (hside.symm.trans hnone) (by simp)
  exact absurd (hpart.symm.trans hthere) (by simp)

end Openlake.PartPairing
