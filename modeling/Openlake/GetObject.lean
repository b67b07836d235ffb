import Openlake.Consensus
import Openlake.Promote
import Openlake.Ranges
import Openlake.StripeReader

/-!
# Reading an object

A GET asks every disk of the set for its record, takes the votes, resolves the
range against the voted size, and opens a stream: over the inline frames of the
record, or over the parts of a striped object from the part and stripe the range
starts in.
-/

set_option autoImplicit false

namespace Openlake.GetObject
open Openlake.Types XlMeta LocalFs Consensus Promote Streams StripeReader Ranges Ec Lib.Effects
open Lib.Chunks

inductive StorageClass where
  | inline
  | single
  deriving DecidableEq, Repr

structure ObjectInfo where
  bucket : String
  key : String
  size : UInt64
  etag : String
  storageClass : StorageClass
  modifiedMs : UInt64
  contentType : Option String
  versionId : String
  isDeleteMarker : Bool
  deriving DecidableEq, Repr

def toObjectInfo (bucket : String) (fi : FileInfo) : ObjectInfo :=
  { bucket := bucket, key := fi.name, size := (max fi.size 0).toUInt64,
    etag := (etagOf fi).getD "",
    storageClass := if fi.data.isSome then .inline else .single, modifiedMs := fi.modTimeMs,
    contentType := BTreeMap.get contentTypeMetaKey fi.metadata, versionId := fi.versionId,
    isDeleteMarker := fi.deleted }

inductive Body where
  | rope (frames : ByteSource)
  | striped (m : MultiPartEcStream)

def Body.step (rs : ReedSolomon) : Body → Except IoError (Turn UInt8 Body)
  | .rope frames => (sourceStep frames).map (Turn.map Body.rope)
  | .striped m => (m.step rs).map (Turn.map Body.striped)

inductive ObjectStream where
  | whole (body : Body)
  | window (s : SkipTakeStream Body)

def ObjectStream.step (rs : ReedSolomon) : ObjectStream → Except IoError (Turn UInt8 ObjectStream)
  | .whole body => (body.step rs).map (Turn.map ObjectStream.whole)
  | .window s => (s.step (Body.step rs)).map (Turn.map ObjectStream.window)

def ranged (window : Option (UInt64 × UInt64)) (skip length : ℕ) (body : Body) : ObjectStream :=
  if window.isSome then .window ⟨body,skip,length⟩ else .whole body

/-- The part that holds the offset and what is left of the offset in it. Past
the last part it is the first part again. -/
def seekPart (intra i : ℕ) : List ObjectPartInfo → ℕ × ℕ
  | [] => (0,intra)
  | p::ps => if intra < partLen p then (i,intra) else seekPart (intra-partLen p) (i+1) ps

section Reading

variable {n : ℕ}

def shardReader (t : Disk) : ShardReader := fun volume path offset length =>
  value (readFileStream volume path offset length t)

def openStriped (bucket key : String) (disks : Disks n) (fi : FileInfo) (offset : ℕ) :
    Except StorageError (MultiPartEcStream × ℕ) := do
  let dataShards := fi.erasure.dataBlocks.toNat
  let parityShards := fi.erasure.parityBlocks.toNat
  let inconsistent (msg : String) : StorageError := .inconsistentMeta bucket key msg
  if dataShards+parityShards ≠ n then
    .error (inconsistent ("EC config (D=" ++ toString dataShards ++ ", P=" ++
      toString parityShards ++ ") does not match set size N=" ++ toString n))
  let blockSize := fi.erasure.blockSize.toNat
  if blockSize = 0 ∨ blockSize%dataShards ≠ 0 then
    .error (inconsistent ("block_size " ++ toString blockSize ++
      " not a multiple of data_shards " ++ toString dataShards))
  let stripeUnit := blockSize/dataShards
  if stripeUnit%512 ≠ 0 then
    .error (inconsistent ("stripe_unit " ++ toString stripeUnit ++ " not 512-byte aligned"))
  let ec ← (Erasure.new dataShards parityShards).mapError (fun e => .io (.invalidArgument
    ("EC init (" ++ toString dataShards ++ "+" ++ toString parityShards ++ "): " ++ e)))
  if fi.dataDir = "" then
    .error (inconsistent "EC object missing data_dir in xl.meta")
  let (startPart,intraPart) := seekPart offset 0 fi.parts
  return ({ backends := List.ofFn (fun i => shardReader (disks i)), bucket := bucket, key := key,
            dataDir := fi.dataDir, parts := fi.parts.drop startPart,
            startStripe := intraPart/blockSize, blockSize := blockSize,
            stripeUnit := stripeUnit, ec := ec },intraPart%blockSize)

def openBody (bucket key : String) (disks : Disks n) (fi : FileInfo)
    (window : Option (UInt64 × UInt64)) : Except StorageError ObjectStream := do
  let (offset,length) := window.getD (0,fi.size.toUInt64)
  if hasInline fi then
    return ranged window offset.toNat length.toNat (.rope (ropeByteStream (fi.data.getD [])))
  if fi.size = 0 then return .whole (.rope [])
  let (m,sub) ← openStriped bucket key disks fi offset.toNat
  return ranged window sub length.toNat (.striped m)

/-- A requested range that does not resolve gives no window and an empty
stream. -/
def openObject (bucket key : String) (disks : Disks n) (fi : FileInfo) (range : Option ByteRange) :
    Except StorageError (ObjectInfo × Option (UInt64 × UInt64) × ObjectStream) := do
  let info := toObjectInfo bucket fi
  let window := range.bind (resolve fi.size.toUInt64)
  if range.isSome ∧ window.isNone then return (info,none,.whole (.rope []))
  return (info,window,← openBody bucket key disks fi window)

def probes (c : MetaCodec) (bucket key : String) (versionId : Option String) (readData : Bool)
    (disks : Disks n) : List (Except IoError FileInfo) :=
  List.ofFn (fun i => value (readVersion c bucket key versionId readData (disks i)))

variable {H : Type} [DecidableEq H] (o : HashOrders H) (blake3 : Bytes → H) (c : MetaCodec)

def readVersioned (bucket key : String) (versionId : Option String) (readData : Bool)
    (disks : Disks n) : Except StorageError (ℕ × FileInfo) :=
  readWithConsensus o blake3 bucket key (probes c bucket key versionId readData disks)

def getVersioned (bucket key : String) (versionId : Option String) (range : Option ByteRange)
    (disks : Disks n) :
    Except StorageError (ObjectInfo × Option (UInt64 × UInt64) × ObjectStream) := do
  let (_,fi) ← readVersioned o blake3 c bucket key versionId true disks
  openObject bucket key disks fi range

end Reading

end Openlake.GetObject
