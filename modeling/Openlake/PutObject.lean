import Openlake.Multipart

/-!
# Storing an object from a stream

A put takes as many bytes from its source as the client declared and stops there:
a small object goes into the record as the frames it came in, a large one into
shard files. The time, the ids, the outcome of the lock and of the bucket's
metadata, and the disks that fail are inputs.
-/

set_option autoImplicit false

namespace Openlake.PutObject
open Openlake.Types XlMeta LocalFs Records Ops Ec Streams VersionIds GetObject Multipart Lib.FanOut

def endedInline (total payloadLen : ℕ) : IoError :=
  .io .unexpectedEof ("inline put: source ended at " ++ toString total ++ "/" ++ toString payloadLen)

/-- The frames of the payload, the last one cut to its length. -/
def drainFrames (payloadLen total : ℕ) (src : ByteSource) : Except IoError (List Bytes) :=
  if total < payloadLen then
    match src with
    | [] => .error (endedInline total payloadLen)
    | .error e::_ => .error e
    | .ok chunk::rest =>
      if chunk.isEmpty then .error (endedInline total payloadLen)
      else do
        let frame := chunk.take (payloadLen-total)
        let frames ← drainFrames payloadLen (total+frame.length) rest
        return frame::frames
  else .ok []
termination_by structural src

def drainInlinePayload (md5 : Bytes → Bytes) (src : ByteSource) (payloadLen : ℕ) :
    Except IoError (List Bytes × String) := do
  let frames ← drainFrames payloadLen 0 src
  return (frames,hexLower (md5 frames.flatten))

structure PutCall (n : ℕ) where
  size : UInt64
  src : ByteSource
  contentType : Option String
  modTimeMs : UInt64
  bucketMeta : Except StorageError Buckets.BucketMeta
  freshVersionId : String
  parityShards : ℕ
  inlineThreshold : ℕ
  dataDir : String
  stagingId : String
  lock : Except StorageError Unit
  /-- What the check of the lock before the commit says. -/
  fence : Except StorageError Unit
  create : Fin n → Option IoError
  /-- By stripe and disk. -/
  writeAll : ℕ → Fin n → Option IoError
  finish : Fin n → Option IoError
  rename : Fin n → Option IoError
  cleanup : Fin n → Option IoError

section Put

variable {n : ℕ} (c : MetaCodec) (md5 : Bytes → Bytes) (rs : ReedSolomon) (bucket key : String)

/-- The shards of a large object are staged as the ones of a part are. -/
def PutCall.part (u : PutCall n) : PartUpload n where
  partNumber := 1
  size := u.size
  src := u.src
  modTimeMs := u.modTimeMs
  stagingId := u.stagingId ++ "/" ++ u.dataDir
  faults :=
    { session := fun _ => none, create := u.create, writeAll := u.writeAll, finish := u.finish,
      lock := .ok (), deletePart := fun _ => none, deleteMeta := fun _ => none,
      makeDir := fun _ => none, renamePart := fun _ => none, writeMeta := fun _ => none,
      cleanup := u.cleanup }

def PutCall.erasure (u : PutCall n) : ErasureInfo :=
  defaultErasureInfo (UInt8.ofNat (n-u.parityShards)) (UInt8.ofNat u.parityShards) (UInt8.ofNat n)

def PutCall.info (u : PutCall n) (etag versionId : String) (storageClass : StorageClass) :
    ObjectInfo :=
  { bucket := bucket, key := key, size := u.size, etag := etag, storageClass := storageClass,
    modifiedMs := u.modTimeMs, contentType := u.contentType, versionId := versionId,
    isDeleteMarker := false }

def PutCall.fileInfo (u : PutCall n) (etag versionId : String) (onDiskSize : Int64)
    (inline : Option (List Bytes)) : FileInfo :=
  { buildFileInfo bucket key (Int64.ofNat u.size.toNat) etag u.modTimeMs u.contentType inline
      (singlePartInfo etag onDiskSize (Int64.ofNat u.size.toNat) u.modTimeMs) with
    versionId := versionId }

def PutCall.commit (u : PutCall n) (fi : FileInfo) : Op n Unit := do
  Prog.ofExcept u.fence
  promoteOp c u.rename stagingVol u.stagingId (fun i => indexed fi u.erasure i) bucket key n

def putInline (u : PutCall n) (versionId : String) : Op n ObjectInfo := do
  let (frames,etag) ← Prog.ofExcept ((drainInlinePayload md5 u.src u.size.toNat).mapError .io)
  u.commit c bucket key (u.fileInfo bucket key etag versionId (Int64.ofNat u.size.toNat)
    (some frames))
  return u.info bucket key etag versionId .inline

def storeShards (u : PutCall n) (ec : Erasure) (versionId : String) : Op n ObjectInfo := do
  let etag ← stagePart md5 rs bucket u.part ec
  u.commit c bucket key
    { u.fileInfo bucket key etag versionId (Int64.ofNat (shardSize u.size.toNat ec.dataShards))
        none with dataDir := u.dataDir }
  return u.info bucket key etag versionId .single

/-- An object that is not stored leaves no staging directory. -/
def orSweep (u : PutCall n) : Except StorageError ObjectInfo → Op n ObjectInfo
  | .ok info => return info
  | .error e => do
    cleanupOp stagingVol u.stagingId u.cleanup
    Prog.ofExcept (.error e)

def putEc (u : PutCall n) (versionId : String) : Op n ObjectInfo := do
  let dataShards := n-u.parityShards
  let ec ← Prog.ofExcept ((Erasure.new dataShards u.parityShards).mapError (fun e =>
    invalid ("EC init (" ++ toString dataShards ++ "+" ++ toString u.parityShards ++ "): " ++ e)))
  (storeShards c md5 rs bucket key u ec versionId).andThen (orSweep u)

def put (u : PutCall n) : Op n ObjectInfo := do
  Prog.ofExcept u.lock
  Prog.withLock (objLockKey bucket key) (do
    let bucketMeta ← Prog.ofExcept u.bucketMeta
    let versionId := bucketMeta.nextVersionId u.freshVersionId
    if u.size.toNat ≤ u.inlineThreshold then putInline c md5 bucket key u versionId
    else putEc c md5 rs bucket key u versionId)

end Put

end Openlake.PutObject
