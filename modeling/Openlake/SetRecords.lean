import Openlake.ConsensusTolerance
import Openlake.GetObject
import Openlake.RecordBytes

/-!
# The record of an object on the disks of its set

What a read of one version finds on a disk with a given metadata file, and the
state in which every disk of the set holds one object.
-/

set_option autoImplicit false

namespace Openlake.SetRecords
open Openlake.Types XlMeta LocalFs Promote Consensus ConsensusTolerance Records Lib.FileTree
open Lib.Effects

theorem readVersion_of_file (c : MetaCodec) (bucket key : String) (t : Disk) (raw : Bytes)
    (h : Lib.FileTree.readFile t (metaPath bucket key) = .ok raw) (id : Option String)
    (data : Bool) :
    value (readVersion c bucket key id data t) = versionFrom c bucket key raw id data := by
  have hfile := (readFile_eq_ok t _ raw).mp h
  have hvol : look t [bucket] = some .dir :=
    prefix_shows_dir t _ _ (look_above t _ [] metaFilename _ hfile) (by simp [filePath])
  obtain ⟨s,hs,-⟩ := requireVol_of_dir bucket t hvol
  rw [readVersion_value c bucket key t ⟨_,s,hs⟩, h]

variable {n : ℕ}

/-- Every disk reads the record of one object in its own slot. -/
structure OnAllDisks (c : MetaCodec) (bucket key : String) (versionId : Option String)
    (readData : Bool) (P : ℕ) (fi : FileInfo) (disks : Disks n) : Prop where
  etag : ∃ e, e ≠ "" ∧ etagOf fi = some e
  reads : ∀ i : Fin n, value (readVersion c bucket key versionId readData (disks i)) =
    .ok (indexed fi (setErasure n P) i)

theorem OnAllDisks.valid {c : MetaCodec} {bucket key : String} {versionId : Option String}
    {readData : Bool} {P : ℕ} {fi : FileInfo} {disks : Disks n}
    (h : OnAllDisks c bucket key versionId readData P fi disks) (i : ℕ) (hi : i < n) :
    erasureIsValid (indexed fi (setErasure n P) i).erasure := by
  obtain ⟨bytes,-,hv⟩ := readVersion_ok c bucket key _ versionId readData _ (h.reads ⟨i,hi⟩)
  obtain ⟨-,h2,h3,h4,h5,h6,-⟩ := versionFrom_erasure c bucket key bytes versionId readData _ hv
  simp [erasureIsValid, h2, h3, h4, h5, h6]

section Sample

open RecordBytes

/-- An object of one byte, kept inline on four disks with parity two. -/
def quadPut : FileInfo :=
  { buildFileInfo "b" "k" 1 "0cc175b9c0f1b6a831c399e269772661" 1 none (some [[97]])
      (singlePartInfo "0cc175b9c0f1b6a831c399e269772661" 1 1 1) with
    versionId := VersionIds.nullVersionId, fresh := false }

def quadTable : List (List VersionRecord) :=
  (List.range 4).map (fun i => recordsOf [indexed quadPut (setErasure 4 2) i])

theorem quadTable_injective :
    ∀ a ∈ quadTable, ∀ b ∈ quadTable, onDiskMeta a = onDiskMeta b → a = b := by
  decide +kernel

def quadCodec : MetaCodec := tableCodec quadTable Lib.Xxh64.xxh64 quadTable_injective

def quadMeta (i : Fin 4) : Bytes :=
  (encodeVersions quadCodec [indexed quadPut (setErasure 4 2) i]).toOption.getD []

def diskWith (file : Bytes) : Disk := .dir [("b",.dir [("k",.dir [("xl.meta",.file file)])])]

def quadDisks : Disks 4 := fun i => diskWith (quadMeta i)

theorem quad_onAllDisks : OnAllDisks quadCodec "b" "k" none true 2 quadPut quadDisks where
  etag := ⟨"0cc175b9c0f1b6a831c399e269772661",by decide,by decide⟩
  reads := by decide +kernel

end Sample

end Openlake.SetRecords
