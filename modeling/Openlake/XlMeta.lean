import Openlake.Lib.ByteCodec
import Openlake.VersionIds

/-!
# The xl.meta codec

An xl.meta file is a header, a msgpack body with one record per version, a
checksum of the body and the inline payloads. The msgpack codec and the hash
are parameters; what the format relies on is that the codec reads back what it
wrote. The blocks the source serialises for parts and erasure settings copy
the fields of the in-memory types, which stand for them here.
-/

set_option autoImplicit false

namespace Openlake.XlMeta
open Openlake.Types VersionIds Lib.ByteCodec

structure VersionRecord where
  versionId : Uuid
  ty : UInt8
  modTime : UInt64
  dataDir : Uuid
  size : Int64
  erasure : ErasureInfo
  parts : List ObjectPartInfo
  metadata : BTreeMap String String
  metaSys : BTreeMap String Bytes
  inlineOffset : UInt64
  inlineLength : UInt64
  deriving DecidableEq

structure Rmp (α : Type) where
  encode : α → Except String Bytes
  decode : Bytes → Except String α
  round_trip : ∀ a b, encode a = .ok b → decode b = .ok a

structure MetaCodec where
  rmp : Rmp (List VersionRecord)
  xxh64 : Bytes → UInt64

structure DecodedRecord where
  versionId : String
  dataDir : String
  deleted : Bool
  size : Int64
  modTimeMs : UInt64
  metadata : BTreeMap String String
  metaSys : BTreeMap String Bytes
  erasure : ErasureInfo
  parts : List ObjectPartInfo
  inline : Option (List Bytes)
  numVersions : Int32
  deriving DecidableEq

def refuse (c : Prop) [Decidable c] (e : IoError) : Except IoError Unit :=
  if c then .error e else .ok ()

inductive Ctx where
  | encode
  | decode
  deriving DecidableEq

def Ctx.err : Ctx → String → IoError
  | .encode, msg => .encode ("erasure: " ++ msg)
  | .decode, msg => .invalidArgument ("erasure: " ++ msg)

def validateErasure (ei : ErasureInfo) (ctx : Ctx) : Except IoError Unit := do
  refuse (ei.algorithm = "") (ctx.err "algorithm must be non-empty")
  refuse (ei.dataBlocks = 0) (ctx.err "data_blocks must be >= 1")
  refuse (ei.parityBlocks > ei.dataBlocks) (ctx.err ("parity_blocks (" ++
    toString ei.parityBlocks ++ ") must be <= data_blocks (" ++ toString ei.dataBlocks ++ ")"))
  let n := ei.dataBlocks.toNat+ei.parityBlocks.toNat
  refuse (n = 0) (ctx.err "data_blocks + parity_blocks must be > 0")
  refuse (ei.distribution.length ≠ n) (ctx.err ("distribution length (" ++
    toString ei.distribution.length ++ ") must equal data_blocks + parity_blocks (" ++
    toString n ++ ")"))
  refuse (ei.index = 0 ∨ ei.index.toNat > n) (ctx.err ("index (" ++ toString ei.index ++
    ") must be in [1, " ++ toString n ++ "]"))
  refuse (ei.blockSize = 0) (ctx.err "block_size must be > 0")

def partField (i : ℕ) (field : String) : String := "parts[" ++ toString i ++ "]." ++ field

def validatePartsForEncode : ℕ → List ObjectPartInfo → Except IoError Unit
  | _, [] => .ok ()
  | i, p::ps => do
    refuse (p.number ≤ 0)
      (.encode (partField i "number must be > 0, got " ++ toString p.number))
    refuse (p.size < 0) (.encode (partField i "size must be >= 0, got " ++ toString p.size))
    refuse (p.actualSize < 0)
      (.encode (partField i "actual_size must be >= 0, got " ++ toString p.actualSize))
    validatePartsForEncode (i+1) ps

def inlineBytes (fi : FileInfo) : Bytes := (fi.data.getD []).flatten

def frameTotal (fi : FileInfo) : ℕ := (inlineBytes fi).length

def hasInline (fi : FileInfo) : Bool := fi.data.any (fun frames => !frames.isEmpty)

def validateForEncode (fi : FileInfo) : Except IoError Unit := do
  refuse (fi.size < 0) (.encode ("size must be >= 0, got " ++ toString fi.size))
  refuse (fi.modTimeMs = 0) (.encode "mod_time_ms must be set (got 0)")
  validateErasure fi.erasure .encode
  refuse (fi.deleted ∧ fi.parts ≠ []) (.encode "delete marker must have no parts")
  refuse (fi.deleted ∧ fi.size ≠ 0)
    (.encode ("delete marker must have size 0, got " ++ toString fi.size))
  refuse (fi.deleted ∧ hasInline fi) (.encode "delete marker must have no inline data")
  refuse (fi.deleted = false ∧ fi.size > 0 ∧ fi.parts = [])
    (.encode "non-deleted object with size > 0 must have at least one part")
  refuse (hasInline fi ∧ fi.dataDir ≠ "") (.encode ("version cannot set both inline data and " ++
    "data_dir; inline-vs-EC is mutually exclusive"))
  refuse (fi.deleted = false ∧ fi.size > 0 ∧ hasInline fi = false ∧ fi.dataDir = "")
    (.encode "non-deleted EC object with size > 0 must have a non-empty data_dir")
  refuse (hasInline fi ∧ Int64.ofNat (frameTotal fi) ≠ fi.size)
    (.encode ("inline frame total (" ++ toString (Int64.ofNat (frameTotal fi)) ++
      ") must equal size (" ++ toString fi.size ++ ")"))
  validatePartsForEncode 0 fi.parts

def corrupt (msg : String) : IoError := .corruptMetadata "" "" msg

def validatePartsDecoded : ℕ → List ObjectPartInfo → Except IoError Unit
  | _, [] => .ok ()
  | i, p::ps => do
    refuse (p.number ≤ 0) (corrupt (partField i "number must be > 0, got " ++ toString p.number))
    refuse (p.size < 0) (corrupt (partField i "size must be >= 0, got " ++ toString p.size))
    validatePartsDecoded (i+1) ps

def validateDecodedVersion (v : VersionRecord) : Except IoError Unit := do
  refuse (v.ty > 1) (corrupt ("invalid version type: " ++ toString v.ty))
  refuse (v.size < 0) (corrupt ("size must be >= 0, got " ++ toString v.size))
  refuse (v.modTime = 0) (corrupt "mod_time must be set (got 0)")
  (validateErasure v.erasure .decode).mapError
    (fun e => corrupt ("erasure validation: " ++ e.display))
  refuse (v.ty = 1 ∧ v.parts ≠ []) (corrupt "delete marker must have no parts")
  refuse (v.ty = 1 ∧ v.size ≠ 0)
    (corrupt ("delete marker must have size 0, got " ++ toString v.size))
  refuse (v.ty = 1 ∧ v.inlineLength ≠ 0) (corrupt "delete marker must have inline_length == 0")
  refuse (v.ty ≠ 1 ∧ v.size > 0 ∧ v.parts = [])
    (corrupt "non-deleted object with size > 0 must have at least one part")
  refuse (v.inlineLength > 0 ∧ v.dataDir ≠ nil) (corrupt ("version sets both inline_length>0 and " ++
    "a non-zero data_dir; inline-vs-EC is mutually exclusive"))
  refuse (v.inlineLength > 0 ∧ v.size.toUInt64 ≠ v.inlineLength)
    (corrupt ("inline_length (" ++ toString v.inlineLength ++ ") must equal size (" ++
      toString v.size ++ ") for inline versions"))
  validatePartsDecoded 0 v.parts

def checkAll {α : Type} (f : α → Except IoError Unit) : List α → Except IoError Unit
  | [] => .ok ()
  | a::as => do f a; checkAll f as

def parsed {α : Type} : Parsed α → Except IoError α
  | .ok a => .ok a
  | .error e => .error e
  | .panicked => .error (.encode "byte index is not a char boundary")

def encodeRecord (fi : FileInfo) (tailPos : ℕ) : Except IoError VersionRecord := do
  let versionId ← parsed (parseUuidBytes fi.versionId "version_id")
  let dataDir ← parsed (parseUuidBytes fi.dataDir "data_dir")
  let len := UInt64.ofNat (frameTotal fi)
  return { versionId := versionId, ty := if fi.deleted then 1 else 0, modTime := fi.modTimeMs,
           dataDir := dataDir, size := fi.size, erasure := fi.erasure, parts := fi.parts,
           metadata := fi.metadata, metaSys := fi.metaSys,
           inlineOffset := if len = 0 then 0 else UInt64.ofNat tailPos, inlineLength := len }

def encodeRecords : ℕ → List FileInfo → Except IoError (List VersionRecord)
  | _, [] => .ok []
  | tailPos, fi::rest => do
    let r ← encodeRecord fi tailPos
    let rs ← encodeRecords (tailPos+frameTotal fi) rest
    return r::rs

def magic : Bytes := [88,76,50,32]

def formatMajor : ℕ := 1

def formatMinor : ℕ := 3

def headerLen : ℕ := 8

def bin32Tag : UInt8 := 0xc6

def bin32HeaderLen : ℕ := 5

def crcTag : UInt8 := 0xce

def crcLen : ℕ := 5

def inlineTail (versions : List FileInfo) : Bytes := versions.flatMap inlineBytes

def frame (xxh64 : Bytes → UInt64) (body : Bytes) : Bytes :=
  magic ++ leBytes 2 formatMajor ++ leBytes 2 formatMinor ++ [bin32Tag] ++
    beBytes 4 body.length ++ body ++ [crcTag] ++ beBytes 4 (xxh64 body).toNat

def encodeBody (c : MetaCodec) (versions : List FileInfo) : Except IoError Bytes := do
  refuse (versions = []) (.encode "encode_versions: empty versions slice")
  checkAll validateForEncode versions
  let records ← encodeRecords 0 versions
  (c.rmp.encode records).mapError (fun e => .encode ("xl.meta encode: " ++ e))

def encodeVersions (c : MetaCodec) (versions : List FileInfo) : Except IoError Bytes := do
  let body ← encodeBody c versions
  return frame c.xxh64 body ++ inlineTail versions

def decodeInline (bytes : Bytes) (crcEnd : ℕ) (v : VersionRecord) :
    Except IoError (Option (List Bytes)) :=
  if v.inlineLength > 0 then
    let lo := v.inlineOffset.toNat
    let hi := lo+v.inlineLength.toNat
    if 2^64 ≤ hi then .error (corrupt "inline range overflow")
    else if hi > bytes.length-crcEnd then
      .error (corrupt ("inline range [" ++ toString lo ++ "," ++ toString hi ++
        ") exceeds tail length " ++ toString (bytes.length-crcEnd)))
    else .ok (some [slice bytes (crcEnd+lo) (crcEnd+hi)])
  else .ok none

def decodeRecords (bytes : Bytes) (crcEnd : ℕ) (total : Int32) :
    List VersionRecord → Except IoError (List DecodedRecord)
  | [] => .ok []
  | v::vs => do
    let inline ← decodeInline bytes crcEnd v
    let rest ← decodeRecords bytes crcEnd total vs
    return { versionId := formatVersionIdBytes v.versionId,
             dataDir := formatDataDirBytes v.dataDir, deleted := v.ty = 1, size := v.size,
             modTimeMs := v.modTime, metadata := v.metadata, metaSys := v.metaSys,
             erasure := v.erasure, parts := v.parts, inline := inline,
             numVersions := total }::rest

def newestFirst : List VersionRecord → List VersionRecord :=
  List.insertionSort (fun a b => b.modTime ≤ a.modTime)

def decodeAll (c : MetaCodec) (bytes : Bytes) : Except IoError (List DecodedRecord) := do
  refuse (bytes.length < headerLen+bin32HeaderLen+crcLen) (corrupt "too short")
  refuse (slice bytes 0 4 ≠ magic) (corrupt "bad magic")
  let major := leValue (slice bytes 4 6)
  let minor := leValue (slice bytes 6 8)
  refuse (major ≠ formatMajor)
    (.unsupportedMetadataVersion (UInt32.ofNat major) (UInt32.ofNat formatMajor))
  refuse (minor ≠ formatMinor) (corrupt ("format minor mismatch: file has " ++ toString major ++
    "." ++ toString minor ++ ", expected " ++ toString formatMajor ++ "." ++ toString formatMinor))
  refuse (bytes[headerLen]? ≠ some bin32Tag) (corrupt "missing bin32 header")
  let bodyLen := beValue (slice bytes (headerLen+1) (headerLen+5))
  let bodyStart := headerLen+bin32HeaderLen
  let bodyEnd := bodyStart+bodyLen
  let crcEnd := bodyEnd+crcLen
  refuse (bytes.length < crcEnd) (corrupt "truncated body or crc")
  let body := slice bytes bodyStart bodyEnd
  refuse (bytes[bodyEnd]? ≠ some crcTag) (corrupt "missing crc marker")
  refuse ((c.xxh64 body).toNat%2^32 ≠ beValue (slice bytes (bodyEnd+1) crcEnd))
    (corrupt "crc mismatch")
  let onDisk ← (c.rmp.decode body).mapError (fun e => corrupt ("decode body: " ++ e))
  refuse (onDisk = []) (corrupt "empty versions list")
  let versions := newestFirst onDisk
  checkAll validateDecodedVersion versions
  decodeRecords bytes crcEnd (Int32.ofNat versions.length) versions

def decode (c : MetaCodec) (bytes : Bytes) : Except IoError DecodedRecord := do
  match ← decodeAll c bytes with
  | [] => .error (corrupt "empty versions list")
  | r::_ => .ok r

def findVersion (c : MetaCodec) (bytes : Bytes) (versionId : String) :
    Except IoError (Option DecodedRecord) := do
  let all ← decodeAll c bytes
  return all.find? (fun r => r.versionId = versionId)

def fileInfoFromRecord (r : DecodedRecord) (volume path : String) : FileInfo :=
  { volume := volume, name := path, versionId := r.versionId, isLatest := true,
    deleted := r.deleted, dataDir := r.dataDir, modTimeMs := r.modTimeMs, size := r.size,
    metadata := r.metadata, metaSys := r.metaSys, parts := r.parts, erasure := r.erasure,
    data := r.inline, numVersions := max r.numVersions 1 }

end Openlake.XlMeta
