import Openlake.Lib.Xxh64
import Openlake.LocalFs
import Openlake.Records

/-!
# The bytes of the version records

The serialiser writes every structure as a msgpack map with its field names, a
byte vector as an array of numbers, and every number and length in the shortest
form. `tableCodec` is a codec that knows a given list of records and writes them
as the serialiser does.
-/

set_option autoImplicit false

namespace Openlake.RecordBytes
open Openlake.Types Records XlMeta LocalFs Lib.ByteCodec

def uint (n : ℕ) : Bytes :=
  if n < 2^7 then [UInt8.ofNat n]
  else if n < 2^8 then 0xcc::beBytes 1 n
  else if n < 2^16 then 0xcd::beBytes 2 n
  else if n < 2^32 then 0xce::beBytes 4 n
  else 0xcf::beBytes 8 n

def int (i : ℤ) : Bytes :=
  if 0 ≤ i then uint i.toNat
  else if -2^5 ≤ i then [UInt8.ofNat (2^8+i).toNat]
  else if -2^7 ≤ i then 0xd0::beBytes 1 (2^8+i).toNat
  else if -2^15 ≤ i then 0xd1::beBytes 2 (2^16+i).toNat
  else if -2^31 ≤ i then 0xd2::beBytes 4 (2^32+i).toNat
  else 0xd3::beBytes 8 (2^64+i).toNat

def strLen (n : ℕ) : Bytes :=
  if n < 2^5 then [UInt8.ofNat (0xa0+n)]
  else if n < 2^8 then 0xd9::beBytes 1 n
  else if n < 2^16 then 0xda::beBytes 2 n
  else 0xdb::beBytes 4 n

def str (s : String) : Bytes := strLen (utf8 s).length ++ utf8 s

def array (items : List Bytes) : Bytes :=
  (if items.length < 2^4 then [UInt8.ofNat (0x90+items.length)]
   else if items.length < 2^16 then 0xdc::beBytes 2 items.length
   else 0xdd::beBytes 4 items.length) ++ items.flatten

def map (fields : List (Bytes × Bytes)) : Bytes :=
  (if fields.length < 2^4 then [UInt8.ofNat (0x80+fields.length)]
   else if fields.length < 2^16 then 0xde::beBytes 2 fields.length
   else 0xdf::beBytes 4 fields.length) ++ fields.flatMap (fun f => f.1 ++ f.2)

def byteVec (bytes : Bytes) : Bytes := array (bytes.map (fun b => uint b.toNat))

def strMap (m : BTreeMap String String) : Bytes := map (m.map (fun e => (str e.1,str e.2)))

def checksumBlock (ck : ChecksumInfo) : Bytes :=
  map [(str "n",int ck.partNumber.toInt),(str "alg",str ck.algorithm),(str "h",byteVec ck.hash)]

def erasureBlock (ei : ErasureInfo) : Bytes :=
  map [(str "alg",str ei.algorithm),(str "d",uint ei.dataBlocks.toNat),
    (str "p",uint ei.parityBlocks.toNat),(str "i",uint ei.index.toNat),
    (str "bs",uint ei.blockSize.toNat),(str "ds",byteVec ei.distribution),
    (str "cs",array (ei.checksums.map checksumBlock))]

def partBlock (p : ObjectPartInfo) : Bytes :=
  map [(str "n",int p.number.toInt),(str "sz",int p.size.toInt),(str "asz",int p.actualSize.toInt),
    (str "mt",uint p.modTimeMs.toNat),(str "et",str p.etag),(str "ix",byteVec p.index),
    (str "cks",strMap p.checksums)]

def unlessZero (name : String) (n : UInt64) : List (Bytes × Bytes) :=
  if n = 0 then [] else [(str name,uint n.toNat)]

def versionRecord (v : VersionRecord) : Bytes :=
  map ([(str "id",byteVec v.versionId.toList),(str "ty",uint v.ty.toNat),
    (str "mt",uint v.modTime.toNat),(str "dd",byteVec v.dataDir.toList),(str "sz",int v.size.toInt),
    (str "ec",erasureBlock v.erasure),(str "pt",array (v.parts.map partBlock)),
    (str "m",strMap v.metadata),
    (str "ms",map (v.metaSys.map (fun e => (str e.1,byteVec e.2))))] ++
    unlessZero "io" v.inlineOffset ++ unlessZero "il" v.inlineLength)

def onDiskMeta (versions : List VersionRecord) : Bytes :=
  map [(str "v",array (versions.map versionRecord))]

section Table

variable (table : List (List VersionRecord)) (xxh64 : Bytes → UInt64)

def tableEncode (versions : List VersionRecord) : Except String Bytes :=
  if versions ∈ table then .ok (onDiskMeta versions) else .error "unknown records"

def tableDecode (body : Bytes) : Except String (List VersionRecord) :=
  match table.find? (fun versions => onDiskMeta versions = body) with
  | some versions => .ok versions
  | none => .error "unknown body"

theorem tableDecode_tableEncode
    (hinj : ∀ a ∈ table, ∀ b ∈ table, onDiskMeta a = onDiskMeta b → a = b)
    (versions : List VersionRecord) (body : Bytes) (h : tableEncode table versions = .ok body) :
    tableDecode table body = .ok versions := by
  rw [tableEncode] at h
  split_ifs at h with hmem
  obtain rfl := Except.ok.inj h
  rw [tableDecode]
  cases hf : table.find? (fun w => decide (onDiskMeta w = onDiskMeta versions)) with
  | none =>
    have := List.find?_eq_none.mp hf versions hmem
    simp at this
  | some w =>
    have hw := List.find?_some hf
    rw [hinj w (List.mem_of_find?_eq_some hf) versions hmem (by simpa using hw)]

def tableCodec (hinj : ∀ a ∈ table, ∀ b ∈ table, onDiskMeta a = onDiskMeta b → a = b) :
    MetaCodec :=
  ⟨⟨tableEncode table,tableDecode table,tableDecode_tableEncode table hinj⟩,xxh64⟩

end Table

/-- An object of one byte stored inline on the first of two disks. -/
def inlinePut (id etag : String) (modTimeMs : UInt64) (byte : UInt8) : FileInfo :=
  let fi := buildFileInfo "b" "k" 1 etag modTimeMs none (some [[byte]])
    (singlePartInfo etag 1 1 modTimeMs)
  { indexed fi (defaultErasureInfo 1 1 2) 0 with versionId := id }

def firstPut : FileInfo :=
  inlinePut "11111111-1111-4111-8111-111111111111" "0cc175b9c0f1b6a831c399e269772661" 1 97

def secondPut : FileInfo :=
  inlinePut "22222222-2222-4222-8222-222222222222" "92eb5ffee6ae2fec3ad71c777531578f" 2 98

def recordsOf (versions : List FileInfo) : List VersionRecord :=
  (encodeRecords 0 versions).toOption.getD []

def putTable : List (List VersionRecord) :=
  [recordsOf [firstPut],recordsOf [secondPut,firstPut]]

theorem putTable_injective :
    ∀ a ∈ putTable, ∀ b ∈ putTable, onDiskMeta a = onDiskMeta b → a = b := by
  decide +kernel

def putCodec : MetaCodec := tableCodec putTable Lib.Xxh64.xxh64 putTable_injective

def firstMeta : Bytes := (encodeVersions putCodec [firstPut]).toOption.getD []

def emptyBucket : Disk := .dir [("b",.dir [])]

def storedFirst : Disk := .dir [("b",.dir [("k",.dir [("xl.meta",.file firstMeta)])])]

end Openlake.RecordBytes
