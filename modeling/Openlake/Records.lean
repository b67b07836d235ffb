import Openlake.Types

/-!
# Records a write builds

The version record of a write is built once and cloned per disk with the
disk's slot. Counts are cast to bytes as in the source.
-/

set_option autoImplicit false

namespace Openlake.Records
open Openlake.Types

def defaultEcPerShardBytes : ℕ := 1048576

def defaultErasureInfo (dataShards parityShards n : UInt8) : ErasureInfo :=
  { algorithm := "ReedSolomon", dataBlocks := dataShards, parityBlocks := parityShards, index := 0,
    blockSize := UInt32.ofNat (defaultEcPerShardBytes*dataShards.toNat),
    distribution := (List.range n.toNat).map (fun i => UInt8.ofNat (i+1)) }

def indexed (baseFi : FileInfo) (baseErasure : ErasureInfo) (i : ℕ) : FileInfo :=
  { baseFi with erasure := { baseErasure with index := UInt8.ofNat (i+1) } }

def withPerDiskIndex (baseFi : FileInfo) (baseErasure : ErasureInfo) (n : ℕ) : List FileInfo :=
  (List.range n).map (indexed baseFi baseErasure)

def singlePartInfo (etag : String) (onDiskSize actualSize : Int64) (modTimeMs : UInt64) :
    List ObjectPartInfo :=
  [{ etag := etag, number := 1, size := onDiskSize, actualSize := actualSize,
     modTimeMs := modTimeMs }]

def buildFileInfo (volume name : String) (size : Int64) (etag : String) (modTimeMs : UInt64)
    (contentType : Option String) (inline : Option (List Bytes)) (parts : List ObjectPartInfo) :
    FileInfo :=
  let metadata := BTreeMap.insert etagMetaKey etag []
  { volume := volume, name := name, size := size, modTimeMs := modTimeMs, isLatest := true,
    numVersions := 1, fresh := true, parts := parts, data := inline,
    metadata := contentType.elim metadata (fun ct => BTreeMap.insert contentTypeMetaKey ct metadata) }

end Openlake.Records
