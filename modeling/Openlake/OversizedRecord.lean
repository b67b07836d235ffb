import Openlake.RecordBytes
import Openlake.XlMetaRoundTrip

/-!
# A record too long for its length field

A content type of nearly four gibibytes makes the body of the metadata longer
than its length field can say. The version is accepted and written, and the
file it is written to does not decode.
-/

set_option autoImplicit false

namespace Openlake.OversizedRecord
open Openlake.Types Records XlMeta XlMetaRoundTrip LocalFs RecordBytes Lib.ByteCodec Lib.FileTree
open Lib.Effects Lib.Outcomes

def describedPut (contentType : String) : FileInfo :=
  let fi := buildFileInfo "b" "k" 1 "0cc175b9c0f1b6a831c399e269772661" 1 (some contentType)
    (some [[97]]) (singlePartInfo "0cc175b9c0f1b6a831c399e269772661" 1 1 1)
  { indexed fi (defaultErasureInfo 1 1 2) 0 with versionId := "null" }

def describedRecord (contentType : String) : VersionRecord :=
  { versionId := VersionIds.nil, ty := 0, modTime := 1, dataDir := VersionIds.nil, size := 1,
    erasure := { defaultErasureInfo 1 1 2 with index := 1 },
    parts := singlePartInfo "0cc175b9c0f1b6a831c399e269772661" 1 1 1,
    metadata := [("content-type",contentType),("etag","0cc175b9c0f1b6a831c399e269772661")],
    metaSys := [], inlineOffset := 0, inlineLength := 1 }

variable (w : String)

theorem described_records :
    encodeRecords 0 [describedPut w] = .ok [describedRecord w] := rfl

theorem described_valid : checkAll validateForEncode [describedPut w] = .ok () := rfl

def mapHead (n : ℕ) : Bytes :=
  if n < 2^4 then [UInt8.ofNat (0x80+n)]
  else if n < 2^16 then 0xde::beBytes 2 n else 0xdf::beBytes 4 n

def fieldBytes (fields : List (Bytes × Bytes)) : Bytes := fields.flatMap (fun f => f.1 ++ f.2)

theorem map_split (before after : List (Bytes × Bytes)) (k v : Bytes) :
    map (before ++ (k,v)::after) = mapHead (before.length+after.length+1) ++
      (fieldBytes before ++ (k ++ (v ++ fieldBytes after))) := by
  simp only [map, mapHead, fieldBytes, List.length_append, List.length_cons, List.flatMap_append,
    List.flatMap_cons, List.append_assoc, ← Nat.add_assoc]

theorem array_single (item : Bytes) : array [item] = 0x91::item := by
  simp [array]

def fieldsBefore : List (Bytes × Bytes) :=
  [(str "id",byteVec VersionIds.nil.toList),(str "ty",uint 0),(str "mt",uint 1),
    (str "dd",byteVec VersionIds.nil.toList),(str "sz",int 1),
    (str "ec",erasureBlock { defaultErasureInfo 1 1 2 with index := 1 }),
    (str "pt",array ((singlePartInfo "0cc175b9c0f1b6a831c399e269772661" 1 1 1).map partBlock))]

def fieldsAfter : List (Bytes × Bytes) := [(str "ms",map []),(str "il",uint 1)]

theorem versionRecord_described : versionRecord (describedRecord w) =
    map (fieldsBefore ++ (str "m",strMap (describedRecord w).metadata)::fieldsAfter) := rfl

theorem strMap_described : strMap (describedRecord w).metadata =
    map ([] ++ (str "content-type",str w)::
      [(str "etag",str "0cc175b9c0f1b6a831c399e269772661")]) := rfl

def headBytes : Bytes :=
  mapHead 1 ++ (str "v" ++ (0x91::(mapHead 10 ++ (fieldBytes fieldsBefore ++
    (str "m" ++ (mapHead 2 ++ str "content-type"))))))

def lastBytes : Bytes :=
  str "etag" ++ (str "0cc175b9c0f1b6a831c399e269772661" ++ fieldBytes fieldsAfter)

theorem described_bytes :
    onDiskMeta [describedRecord w] = headBytes ++ (str w ++ lastBytes) := by
  have houter : onDiskMeta [describedRecord w] =
      map ([] ++ (str "v",array [versionRecord (describedRecord w)])::[]) := rfl
  have hempty : fieldBytes [] = [] := rfl
  have hone : ∀ k v, fieldBytes [(k,v)] = k ++ v := fun k v => by simp [fieldBytes]
  have hbefore : fieldsBefore.length+fieldsAfter.length+1 = 10 := rfl
  rw [houter, map_split, array_single, versionRecord_described, map_split, strMap_described,
    map_split, hempty, hone, hbefore]
  simp only [headBytes, lastBytes, List.append_assoc, List.nil_append, List.append_nil,
    List.cons_append, List.length_nil, List.length_cons, Nat.zero_add]

theorem length_headBytes : headBytes.length = 191 := by decide +kernel

theorem length_lastBytes : lastBytes.length = 47 := by decide +kernel

def typeOf (n : ℕ) : String := String.ofList (List.replicate n 'a')

theorem utf8_typeOf (n : ℕ) : utf8 (typeOf n) = List.replicate n 97 := by
  rw [utf8, typeOf, String.toList_ofList]
  induction n with
  | zero => rfl
  | succ n ih =>
    rw [List.replicate_succ, List.flatMap_cons, ih]
    rfl

def bodyOf (n : ℕ) : Bytes := onDiskMeta [describedRecord (typeOf n)]

/-- At the length to which the field wraps, the body is in the middle of the
content type. -/
theorem bodyOf_wraps (n : ℕ) (hn : n+1 = 2^32) :
    (bodyOf n)[(bodyOf n).length%2^32]? = some 97 := by
  have hstr : str (typeOf n) = 0xdb::beBytes 4 n ++ List.replicate n 97 := by
    rw [str, utf8_typeOf, List.length_replicate, strLen, if_neg (by omega), if_neg (by omega),
      if_neg (by omega)]
  have hbody : bodyOf n = (headBytes ++ 0xdb::beBytes 4 n) ++ (List.replicate n 97 ++ lastBytes) := by
    rw [bodyOf, described_bytes, hstr]
    simp only [List.append_assoc]
  have hpre : (headBytes ++ 0xdb::beBytes 4 n).length = 196 := by
    rw [List.length_append, length_headBytes, List.length_cons, length_beBytes]
  have hlen : (bodyOf n).length = n+243 := by
    rw [hbody, List.length_append, hpre, List.length_append, List.length_replicate,
      length_lastBytes]
    omega
  rw [hlen, show (n+243)%2^32 = 242 by omega, hbody, List.getElem?_append_right (by omega), hpre,
    List.getElem?_append_left (by rw [List.length_replicate]; omega), List.getElem?_replicate,
    if_pos (by omega)]

def describedCodec (n : ℕ) : MetaCodec :=
  tableCodec [[describedRecord (typeOf n)]] Lib.Xxh64.xxh64 (by simp)

def metaOf (n : ℕ) : Bytes := frame Lib.Xxh64.xxh64 (bodyOf n) ++ [97]

theorem encodes_described (n : ℕ) :
    encodeVersions (describedCodec n) [describedPut (typeOf n)] = .ok (metaOf n) := by
  have henc : (describedCodec n).rmp.encode [describedRecord (typeOf n)] = .ok (bodyOf n) :=
    if_pos (List.mem_singleton.mpr rfl)
  have hbody : encodeBody (describedCodec n) [describedPut (typeOf n)] = .ok (bodyOf n) := by
    simp only [encodeBody, unit_bind_eq_ok, refuse_eq_ok, described_valid, described_records]
    exact ⟨by simp,trivial,by simp only [bind, Except.bind, henc]; rfl⟩
  rw [encodeVersions, hbody]
  rfl

theorem metaOf_unreadable (n : ℕ) (hn : n+1 = 2^32) :
    decodeAll (describedCodec n) (metaOf n) = .error (corrupt "missing crc marker") :=
  decodeAll_wrapped (describedCodec n) (bodyOf n) [97] 97 (bodyOf_wraps n hn) (by decide)

theorem promote_into_empty (c : MetaCodec) (fi : FileInfo) (bytes : Bytes) (hdir : fi.dataDir = "")
    (henc : encodeVersions c [fi] = .ok bytes) :
    renameData c stagingVol "s" fi "b" "k" emptyBucket =
      .ok "" (.dir [(stagingVol,.dir []),("b",.dir [("k",.dir [("xl.meta",.file bytes)])])]) := by
  have h1 : lift (refuse (isSystemVol stagingVol = false) (.invalidArgument
      ("rename_data: src_volume must be a system volume (got " ++ stagingVol ++ ")"))) emptyBucket =
      .ok () emptyBucket := rfl
  have h2 : requireVol "b" emptyBucket = .ok () emptyBucket := rfl
  have h3 : probe (priorVersions c "b" "k") emptyBucket = .ok (none,[]) emptyBucket := rfl
  have h4 : lift (encodeVersions c (mergeVersions fi "b" "k" [])) emptyBucket =
      .ok bytes emptyBucket := by
    rw [show mergeVersions fi "b" "k" [] = [fi] from rfl, henc]
    rfl
  refine (bind_of_ok h1 _).trans ((bind_of_ok h2 _).trans ((bind_of_ok h3 _).trans
    ((bind_of_ok h4 _).trans ?_)))
  rw [hdir]
  rfl

end Openlake.OversizedRecord
