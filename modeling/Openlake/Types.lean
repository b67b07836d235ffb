import Mathlib

/-!
# Records and errors of the object store

The types a storage backend returns and the engine votes over, with the
integer widths of the source. Machine integers stay fixed-width wherever a
wire format or a cast depends on the width. Maps are ordered association
lists, as a B-tree map iterates in key order.
-/

set_option autoImplicit false

namespace Openlake.Types

abbrev Bytes := List UInt8

def utf8 (s : String) : Bytes := s.toList.flatMap String.utf8EncodeChar

theorem utf8_injective : Function.Injective utf8 := by
  intro s t h
  have he : s.toList.utf8Encode = t.toList.utf8Encode := congrArg List.toByteArray h
  rw [← String.ofList_toList (s := s), ← String.ofList_toList (s := t), ← String.toByteArray_inj,
    String.toByteArray_ofList, String.toByteArray_ofList, he]

abbrev BTreeMap (α β : Type) := List (α × β)

namespace BTreeMap

variable {α β : Type} [DecidableEq α]

def get (k : α) : BTreeMap α β → Option β
  | [] => none
  | (a,b)::m => if k = a then some b else get k m

def insert [LT α] [DecidableLT α] (k : α) (v : β) : BTreeMap α β → BTreeMap α β
  | [] => [(k,v)]
  | (a,b)::m =>
    if k = a then (k,v)::m
    else if k < a then (k,v)::(a,b)::m
    else (a,b)::insert k v m

end BTreeMap

inductive ErrorKind where
  | notFound | permissionDenied | connectionRefused | connectionReset | hostUnreachable
  | networkUnreachable | connectionAborted | notConnected | addrInUse | addrNotAvailable
  | networkDown | brokenPipe | alreadyExists | wouldBlock | notADirectory | isADirectory
  | directoryNotEmpty | readOnlyFilesystem | staleNetworkFileHandle | invalidInput
  | invalidData | timedOut | writeZero | storageFull | notSeekable | quotaExceeded
  | fileTooLarge | resourceBusy | executableFileBusy | deadlock | crossesDevices
  | tooManyLinks | invalidFilename | argumentListTooLong | interrupted | unsupported
  | unexpectedEof | outOfMemory | other
  deriving DecidableEq, Repr

inductive IoError where
  | volumeNotFound (volume : String)
  | volumeExists (volume : String)
  | volumeNotEmpty (volume : String)
  | fileNotFound (volume path : String)
  | fileAlreadyExists (volume path : String)
  | fileVersionNotFound (volume path versionId : String)
  | corruptMetadata (volume path msg : String)
  | unsupportedMetadataVersion (found max : UInt32)
  | bitrotCheckFailed (volume path : String)
  | invalidArgument (msg : String)
  | unsupported (msg : String)
  | encode (msg : String)
  | decode (msg : String)
  | io (kind : ErrorKind) (msg : String)
  deriving DecidableEq, Repr

def IoError.display : IoError → String
  | .volumeNotFound v => "volume not found: " ++ v
  | .volumeExists v => "volume already exists: " ++ v
  | .volumeNotEmpty v => "volume not empty: " ++ v
  | .fileNotFound v p => "file not found: " ++ v ++ "/" ++ p
  | .fileAlreadyExists v p => "file already exists: " ++ v ++ "/" ++ p
  | .fileVersionNotFound v p i => "file version not found: " ++ v ++ "/" ++ p ++ "@" ++ i
  | .corruptMetadata v p m => "corrupt xl.meta at " ++ v ++ "/" ++ p ++ ": " ++ m
  | .unsupportedMetadataVersion f m =>
    "unsupported xl.meta version " ++ toString f ++ " (max " ++ toString m ++ ")"
  | .bitrotCheckFailed v p => "bitrot check failed at " ++ v ++ "/" ++ p
  | .invalidArgument m => "invalid argument: " ++ m
  | .unsupported m => "unsupported operation: " ++ m
  | .encode m => "encode: " ++ m
  | .decode m => "decode: " ++ m
  | .io _ m => "io: " ++ m

inductive StorageError where
  | bucketNotFound (bucket : String)
  | bucketAlreadyExists (bucket : String)
  | bucketNotEmpty (bucket : String)
  | objectNotFound (bucket key : String)
  | versionNotFound (bucket key versionId : String)
  | invalidBucketName (msg : String)
  | invalidObjectKey (msg : String)
  | lockTimeout (resource : String)
  | lockLost (resource : String)
  | inconsistentMeta (bucket key msg : String)
  | insufficientOnlineDrives (bucket key msg : String)
  | io (e : IoError)
  deriving DecidableEq, Repr

def StorageError.display : StorageError → String
  | .bucketNotFound b => "bucket not found: " ++ b
  | .bucketAlreadyExists b => "bucket already exists: " ++ b
  | .bucketNotEmpty b => "bucket not empty: " ++ b
  | .objectNotFound b k => "object not found: " ++ b ++ "/" ++ k
  | .versionNotFound b k v => "version not found: " ++ b ++ "/" ++ k ++ "@" ++ v
  | .invalidBucketName m => "invalid bucket name: " ++ m
  | .invalidObjectKey m => "invalid object key: " ++ m
  | .lockTimeout r => "lock timeout on " ++ r
  | .lockLost r => "lock lost on " ++ r
  | .inconsistentMeta b k m => "inconsistent metadata for " ++ b ++ "/" ++ k ++ ": " ++ m
  | .insufficientOnlineDrives b k m =>
    "insufficient online drives for " ++ b ++ "/" ++ k ++ ": " ++ m
  | .io e => "io: " ++ e.display

structure ChecksumInfo where
  partNumber : Int32
  algorithm : String
  hash : Bytes
  deriving DecidableEq

structure ErasureInfo where
  algorithm : String := ""
  dataBlocks : UInt8 := 0
  parityBlocks : UInt8 := 0
  blockSize : UInt32 := 0
  index : UInt8 := 0
  distribution : Bytes := []
  checksums : List ChecksumInfo := []
  deriving DecidableEq

structure ObjectPartInfo where
  etag : String := ""
  number : Int32 := 0
  size : Int64 := 0
  actualSize : Int64 := 0
  modTimeMs : UInt64 := 0
  index : Bytes := []
  checksums : BTreeMap String String := []
  deriving DecidableEq

structure FileInfo where
  volume : String := ""
  name : String := ""
  versionId : String := ""
  isLatest : Bool := false
  deleted : Bool := false
  dataDir : String := ""
  modTimeMs : UInt64 := 0
  size : Int64 := 0
  metadata : BTreeMap String String := []
  metaSys : BTreeMap String Bytes := []
  parts : List ObjectPartInfo := []
  erasure : ErasureInfo := {}
  data : Option (List Bytes) := none
  numVersions : Int32 := 0
  fresh : Bool := false
  deriving DecidableEq

def etagMetaKey : String := "etag"

def contentTypeMetaKey : String := "content-type"

inductive VersioningStatus where
  | unversioned
  | enabled
  | suspended
  deriving DecidableEq, Repr

end Openlake.Types
