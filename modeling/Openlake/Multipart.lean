import Openlake.Buckets
import Openlake.GetObject
import Openlake.Ops

/-!
# Multipart uploads

A session is a directory in the multipart volume with a metadata file. A part
is staged on every disk and then, under the lock of its part number, put in the
place of its predecessor: a shard file and a sidecar with the part's etag and
sizes. Completing a session reads the sidecars, removes them, and promotes the
session directory to the object.

The disks that fail, the outcomes of the locks, the times and the staging ids
are inputs.
-/

set_option autoImplicit false

namespace Openlake.Multipart
open Openlake.Types XlMeta LocalFs Promote Records Ops Ec Streams StripeWriter VersionIds GetObject
open Lib.FanOut

def partName (partNumber : UInt32) : String := "part." ++ toString partNumber

def sessionPath (bucket key uploadId : String) : String := bucket ++ "/" ++ key ++ "/" ++ uploadId

def finalPart (sessionPath dataDir : String) (partNumber : UInt32) : String :=
  sessionPath ++ "/" ++ dataDir ++ "/" ++ partName partNumber

def finalMeta (sessionPath dataDir : String) (partNumber : UInt32) : String :=
  sessionPath ++ "/" ++ dataDir ++ "/" ++ (partName partNumber ++ ".meta")

def invalid (msg : String) : StorageError := .io (.invalidArgument msg)

section Session

/-- The first key to be seen `threshold` times. -/
def majorityKey {K : Type} [DecidableEq K] (threshold : ℕ) (seen : List K) : List K → Option K
  | [] => none
  | k::ks => if threshold ≤ seen.count k+1 then some k else majorityKey threshold (k::seen) ks

structure SessionKey where
  dataDir : String
  dataBlocks : UInt8
  parityBlocks : UInt8
  deriving DecidableEq

def sessionKey (fi : FileInfo) : SessionKey :=
  ⟨fi.dataDir,fi.erasure.dataBlocks,fi.erasure.parityBlocks⟩

/-- A key of the majority belongs to one of the records. -/
def pickSession (sessionPath : String) (metas : List (Except IoError FileInfo)) :
    Except StorageError FileInfo :=
  let valid := metas.filterMap Except.toOption
  match majorityKey (metas.length/2+1) [] (valid.map sessionKey) with
  | some winner => .ok ((valid.find? (fun fi => sessionKey fi = winner)).getD {})
  | none => .error (.io ((metas.filterMap failureOf).getLast?.getD (.invalidArgument
      ("session " ++ sessionPath ++ ": no quorum on data_dir/erasure"))))

variable {n : ℕ} (c : MetaCodec)

def readSessionFi (faults : Fin n → Option IoError) (sessionPath : String) : Op n FileInfo := do
  let metas ← onDisks faults (fun _ => readVersion c multipartVol sessionPath none false)
  let fi ← Prog.ofExcept (pickSession sessionPath (List.ofFn metas))
  if fi.dataDir = "" then Prog.ofExcept (.error (invalid "session xl.meta missing data_dir"))
  else return fi

structure SessionCall (n : ℕ) where
  bucketMeta : Except StorageError Buckets.BucketMeta
  freshVersionId : String
  dataDir : String
  modTimeMs : UInt64
  uploadId : String
  contentType : Option String
  parityShards : ℕ
  writeFaults : Fin n → Option IoError

def createdFi (session versionId : String) (call : SessionCall n) : FileInfo :=
  { volume := multipartVol, name := session, versionId := versionId, isLatest := true,
    modTimeMs := call.modTimeMs, dataDir := call.dataDir, fresh := true,
    metadata := call.contentType.elim [] (fun ct => BTreeMap.insert contentTypeMetaKey ct []) }

def createMultipartUpload (bucket key : String) (call : SessionCall n) : Op n String := do
  Prog.ofExcept (Buckets.validateBucketName bucket)
  let bucketMeta ← Prog.ofExcept call.bucketMeta
  let session := sessionPath bucket key call.uploadId
  let fi := createdFi session (bucketMeta.nextVersionId call.freshVersionId) call
  let baseErasure := defaultErasureInfo (UInt8.ofNat (n-call.parityShards))
    (UInt8.ofNat call.parityShards) (UInt8.ofNat n)
  let results ← onDisks call.writeFaults (fun i =>
    writeMetadata c multipartVol session (indexed fi baseErasure i))
  let failures := List.ofFn (fun i => failureOf (results i))
  if failures.countP Option.isNone < n then
    cleanupOp multipartVol session (fun _ => none)
    Prog.ofExcept (.error (.io ((failures.findSome? id).getD (.invalidArgument "no quorum"))))
  else return call.uploadId

end Session

structure UploadFaults (n : ℕ) where
  session : Fin n → Option IoError
  create : Fin n → Option IoError
  /-- By stripe and disk. -/
  writeAll : ℕ → Fin n → Option IoError
  finish : Fin n → Option IoError
  lock : Except StorageError Unit
  deletePart : Fin n → Option IoError
  deleteMeta : Fin n → Option IoError
  makeDir : Fin n → Option IoError
  renamePart : Fin n → Option IoError
  writeMeta : Fin n → Option IoError
  cleanup : Fin n → Option IoError

structure PartUpload (n : ℕ) where
  partNumber : UInt32
  size : UInt64
  src : ByteSource
  modTimeMs : UInt64
  stagingId : String
  faults : UploadFaults n

structure PartSink (n : ℕ) where
  disk : Fin n
  stripes : ℕ
  written : Bytes

def PartSink.writeAll {n : ℕ} (faults : ℕ → Fin n → Option IoError) (sink : PartSink n)
    (shard : Bytes) : Except IoError (PartSink n) :=
  match faults sink.stripes sink.disk with
  | some e => .error e
  | none => .ok { sink with stripes := sink.stripes+1, written := sink.written ++ shard }

section Upload

variable {n : ℕ} (c : MetaCodec) (sidecars : Rmp ObjectPartInfo) (md5 : Bytes → Bytes)
  (rs : ReedSolomon) (bucket : String)

def PartUpload.tmpPath (u : PartUpload n) : String := u.stagingId ++ "/" ++ partName u.partNumber

def PartUpload.stripes (u : PartUpload n) (ec : Erasure) : ℕ :=
  stripeCount u.size.toNat (ec.dataShards*defaultEcPerShardBytes)

def PartUpload.encode (u : PartUpload n) (ec : Erasure) :
    Except IoError (String × List (PartSink n)) :=
  encodeAndWriteStripes md5 rs ec (PartSink.writeAll u.faults.writeAll) u.src u.size.toNat
    (ec.dataShards*defaultEcPerShardBytes) (u.stripes ec) (List.ofFn (fun i => ⟨i,0,[]⟩))

def PartUpload.info (u : PartUpload n) (ec : Erasure) (etag : String) : ObjectPartInfo :=
  { etag := etag, number := Int32.ofNat u.partNumber.toNat,
    size := Int64.ofNat (shardSize u.size.toNat ec.dataShards),
    actualSize := Int64.ofNat u.size.toNat, modTimeMs := u.modTimeMs }

def firstFailure {α : Type} (results : Fin n → Except IoError α) : Except IoError Unit :=
  match (List.ofFn (fun i => failureOf (results i))).findSome? id with
  | some e => .error e
  | none => .ok ()

def quorumOf {α : Type} (results : Fin n → Except IoError α) : Op n Unit :=
  Prog.ofExcept ((requireQuorum (List.ofFn results) n (fun _ => false)).mapError
    (mapBucketOrIo bucket))

def stagePart (u : PartUpload n) (ec : Erasure) : Op n String := do
  let opened ← onDisks u.faults.create (fun _ => createFileWriter stagingVol u.tmpPath)
  Prog.ofExcept ((firstFailure opened).mapError (mapBucketOrIo bucket))
  let (etag,sinks) ← Prog.ofExcept ((u.encode md5 rs ec).mapError (mapBucketOrIo bucket))
  let finished ← onDisks u.faults.finish (fun i => finishFile stagingVol u.tmpPath
    (u.stripes ec*defaultEcPerShardBytes) ((sinks[i.val]?.map PartSink.written).getD []))
  quorumOf bucket finished
  return etag

def placePart (u : PartUpload n) (sessionPath dataDir : String) (sidecar : Bytes) : Op n Unit := do
  let part := finalPart sessionPath dataDir u.partNumber
  let sidecarPath := finalMeta sessionPath dataDir u.partNumber
  sweep (fun i =>
    Task.before (attempt (u.faults.deletePart i) (delete multipartVol part false))
      (Task.before (attempt (u.faults.deleteMeta i) (delete multipartVol sidecarPath false)) (.done ())))
  let made ← onDisks u.faults.makeDir (fun _ => makeDirAll multipartVol
    (sessionPath ++ "/" ++ dataDir))
  quorumOf bucket made
  let placed ← Prog.ask (fun i =>
    Task.askThen (attempt (u.faults.renamePart i)
        (renameFile stagingVol u.tmpPath multipartVol part))
      (fun _ => Task.ask (attempt (u.faults.writeMeta i) (writeFile multipartVol sidecarPath sidecar))))
  quorumOf bucket placed

def storePart (key uploadId : String) (u : PartUpload n) (ec : Erasure) (dataDir : String) :
    Op n ObjectPartInfo := do
  let etag ← stagePart md5 rs bucket u ec
  let info := u.info ec etag
  let sidecar ← Prog.ofExcept ((sidecars.encode info).mapError (fun e =>
    .io (.encode ("part sidecar: " ++ e))))
  Prog.ofExcept u.faults.lock
  Prog.withLock (partLockKey bucket key uploadId u.partNumber)
    (placePart bucket u (sessionPath bucket key uploadId) dataDir sidecar)
  return info

/-- A part that is not stored leaves no staging directory. -/
def orCleanup (u : PartUpload n) : Except StorageError ObjectPartInfo → Op n ObjectPartInfo
  | .ok info => return info
  | .error e => do
    cleanupOp stagingVol u.stagingId u.faults.cleanup
    Prog.ofExcept (.error e)

def checkPartNumber (partNumber : UInt32) : Except StorageError Unit :=
  if partNumber = 0 ∨ 10000 < partNumber then
    .error (invalid ("partNumber must be in 1..=10000, got " ++ toString partNumber))
  else .ok ()

def erasureOf (fi : FileInfo) : Except StorageError Erasure :=
  let dataShards := fi.erasure.dataBlocks.toNat
  let parityShards := fi.erasure.parityBlocks.toNat
  (Erasure.new dataShards parityShards).mapError (fun e =>
    invalid ("EC init (" ++ toString dataShards ++ "+" ++ toString parityShards ++ "): " ++ e))

def uploadPart (key uploadId : String) (u : PartUpload n) : Op n ObjectPartInfo := do
  Prog.ofExcept (checkPartNumber u.partNumber)
  Prog.ofExcept (Buckets.validateBucketName bucket)
  let sessionFi ← readSessionFi c u.faults.session (sessionPath bucket key uploadId)
  let ec ← Prog.ofExcept (erasureOf sessionFi)
  (storePart sidecars md5 rs bucket key uploadId u ec sessionFi.dataDir).andThen (orCleanup u)

end Upload

structure CompletePart where
  partNumber : UInt32
  etag : String

structure CompleteCall (n : ℕ) where
  parts : List CompletePart
  modTimeMs : UInt64
  lock : Except StorageError Unit
  /-- What the check of the lock before the commit says. -/
  fence : Except StorageError Unit
  renameFaults : Fin n → Option IoError

def asciiLower (s : String) : String := String.ofList (s.toList.map Char.toLower)

def trimQuotes (s : String) : String :=
  String.ofList (((s.toList.dropWhile (· = '"')).reverse.dropWhile (· = '"')).reverse)

def hexValue (b : UInt8) : Option UInt8 :=
  if 48 ≤ b ∧ b ≤ 57 then some (b-48)
  else if 97 ≤ b ∧ b ≤ 102 then some (b-87)
  else if 65 ≤ b ∧ b ≤ 70 then some (b-55) else none

def hexPairs : Bytes → ℕ → Except String Bytes
  | a::b::rest,i => do
    let digit (b : UInt8) (i : ℕ) : Except String UInt8 :=
      match hexValue b with
      | some d => .ok d
      | none => .error ("Invalid character " ++ (Char.ofNat b.toNat).quote ++ " at position " ++
          toString i)
    let hi ← digit a i
    let lo ← digit b (i+1)
    let out ← hexPairs rest (i+2)
    return (hi*16+lo)::out
  | _,_ => .ok []

def hexDecode (s : String) : Except String Bytes :=
  if (utf8 s).length%2 ≠ 0 then .error "Odd number of digits" else hexPairs (utf8 s) 0

def minPartSize : Int64 := 5242880

def checkAscending : List CompletePart → Except StorageError Unit
  | a::b::rest =>
    if b.partNumber ≤ a.partNumber then
      .error (invalid ("parts must be ascending by part_number (got " ++ toString b.partNumber ++
        " after " ++ toString a.partNumber ++ ")"))
    else checkAscending (b::rest)
  | _ => .ok ()

def checkParts (parts : List CompletePart) : Except StorageError Unit :=
  if parts = [] then .error (invalid "CompleteMultipartUpload requires at least one part")
  else checkAscending parts

def checkPart (isLast : Bool) (claimed : CompletePart) (actual : ObjectPartInfo) :
    Except StorageError Bytes :=
  let claimedEtag := asciiLower (trimQuotes claimed.etag)
  if claimedEtag ≠ asciiLower actual.etag then
    .error (invalid ("part " ++ toString claimed.partNumber ++ " etag mismatch: client " ++
      claimedEtag.quote ++ ", server " ++ actual.etag.quote))
  else if isLast = false ∧ actual.actualSize < minPartSize then
    .error (invalid ("part " ++ toString claimed.partNumber ++ " below 5 MiB minimum (got " ++
      toString actual.actualSize ++ " bytes)"))
  else (hexDecode actual.etag).mapError (fun e =>
    invalid ("part " ++ toString claimed.partNumber ++ " etag not hex: " ++ e))

def checkEtags : List CompletePart → List ObjectPartInfo → Except StorageError Bytes
  | claimed::parts,actual::infos => do
    let raw ← checkPart parts.isEmpty claimed actual
    let rest ← checkEtags parts infos
    return raw ++ rest
  | _,_ => .ok []

section Complete

variable {n : ℕ} (c : MetaCodec) (sidecars : Rmp ObjectPartInfo) (md5 : Bytes → Bytes)

/-- The first sidecar counts; one is enough. -/
def pickSidecar (partNumber : UInt32) (reads : List (Except IoError (Option Bytes))) :
    Except StorageError ObjectPartInfo :=
  match reads.filterMap (fun r => r.toOption.join) with
  | [] => .error (invalid (partName partNumber ++
      " sidecar missing or below read quorum (0/1)"))
  | bytes::_ => (sidecars.decode bytes).mapError (fun e =>
      .io (.decode (partName partNumber ++ ".meta: " ++ e)))

def readPartSidecars (sessionPath dataDir : String) : List CompletePart → Op n (List ObjectPartInfo)
  | [] => return []
  | p::parts => do
    let reads ← onDisks (fun _ => none) (fun _ =>
      readFile multipartVol (finalMeta sessionPath dataDir p.partNumber))
    let info ← Prog.ofExcept (pickSidecar sidecars p.partNumber (List.ofFn reads))
    let infos ← readPartSidecars sessionPath dataDir parts
    return info::infos

def deleteSidecars (sessionPath dataDir : String) : List CompletePart → Task Disk Unit
  | [] => .done ()
  | p::parts => Task.before (delete multipartVol (finalMeta sessionPath dataDir p.partNumber) false)
      (deleteSidecars sessionPath dataDir parts)

def assembledEtag (digests : Bytes) (parts : List CompletePart) : String :=
  hexLower (md5 digests) ++ "-" ++ toString parts.length

def assembledFi (bucket key : String) (call : CompleteCall n) (sessionFi : FileInfo)
    (infos : List ObjectPartInfo) (etag : String) : FileInfo :=
  { volume := bucket, name := key, versionId := sessionFi.versionId, isLatest := true,
    size := (infos.map ObjectPartInfo.actualSize).sum, modTimeMs := call.modTimeMs,
    dataDir := sessionFi.dataDir, fresh := true, parts := infos,
    metadata := BTreeMap.insert etagMetaKey etag sessionFi.metadata, numVersions := 1 }

def assembledInfo (bucket key : String) (fi : FileInfo) (etag : String) : ObjectInfo :=
  { bucket := bucket, key := key, size := fi.size.toUInt64, etag := etag, storageClass := .single,
    modifiedMs := fi.modTimeMs, contentType := BTreeMap.get contentTypeMetaKey fi.metadata,
    versionId := fi.versionId, isDeleteMarker := false }

def assemble (bucket key uploadId : String) (call : CompleteCall n) : Op n ObjectInfo := do
  let session := sessionPath bucket key uploadId
  let sessionFi ← readSessionFi c (fun _ => none) session
  let infos ← readPartSidecars sidecars session sessionFi.dataDir call.parts
  let digests ← Prog.ofExcept (checkEtags call.parts infos)
  let etag := assembledEtag md5 digests call.parts
  let fi := assembledFi bucket key call sessionFi infos etag
  let baseErasure := defaultErasureInfo sessionFi.erasure.dataBlocks sessionFi.erasure.parityBlocks
    (UInt8.ofNat n)
  sweep (fun _ => deleteSidecars session sessionFi.dataDir call.parts)
  Prog.ofExcept call.fence
  promoteOp c call.renameFaults multipartVol session (fun i => indexed fi baseErasure i) bucket key n
  return assembledInfo bucket key fi etag

def completeMultipartUpload (bucket key uploadId : String) (call : CompleteCall n) :
    Op n ObjectInfo := do
  Prog.ofExcept (Buckets.validateBucketName bucket)
  Prog.ofExcept (checkParts call.parts)
  Prog.ofExcept call.lock
  Prog.withLock (objLockKey bucket key) (assemble c sidecars md5 bucket key uploadId call)

end Complete

end Openlake.Multipart
