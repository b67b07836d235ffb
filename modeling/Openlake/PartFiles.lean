import Openlake.FileCalls
import Openlake.Multipart

/-!
# The files of a part

The shard file and the sidecar of a part are entries of one directory of the
session. Putting a part in place is said for each entry by the calls that
failed: what was deleted, what was renamed and what was written.
-/

set_option autoImplicit false

namespace Openlake.PartFiles
open Openlake.Types LocalFs Promote Multipart Lib.FileTree Lib.Effects

def metaName (partNumber : UInt32) : String := partName partNumber ++ ".meta"

section Names

variable (a : UInt32)

theorem isDigit_toString (c : Char) (h : c ∈ (toString a).toList) :
    c.isDigit = true := by
  have hrepr : toString a = a.toNat.repr := rfl
  rw [hrepr, Nat.repr_eq_ofList_toDigits, String.toList_ofList] at h
  exact Nat.isDigit_of_mem_toDigits (by decide) (by decide) h

theorem toList_partName :
    (partName a).toList = ['p','a','r','t','.'] ++ (toString a).toList := by
  rw [partName, String.toList_append]
  rfl

theorem toList_metaName :
    (metaName a).toList = ['p','a','r','t','.'] ++ ((toString a).toList ++ ['.','m','e','t','a']) := by
  rw [metaName, String.toList_append, toList_partName, List.append_assoc]
  rfl

theorem toString_injective {a b : UInt32} (h : (toString a).toList = (toString b).toList) :
    a = b := by
  have hrepr : a.toNat.repr = b.toNat.repr := String.toList_inj.mp h
  exact UInt32.toNat_inj.mp (Nat.repr_injective hrepr)

theorem partName_inj {a b : UInt32} (h : partName a = partName b) : a = b := by
  have hlist := congrArg String.toList h
  rw [toList_partName, toList_partName, List.append_right_inj] at hlist
  exact toString_injective hlist

theorem metaName_inj {a b : UInt32} (h : metaName a = metaName b) : a = b := by
  have hlist := congrArg String.toList h
  rw [toList_metaName, toList_metaName, List.append_right_inj, List.append_left_inj] at hlist
  exact toString_injective hlist

theorem partName_ne_metaName (a b : UInt32) : partName a ≠ metaName b := by
  intro h
  have hlist := congrArg String.toList h
  rw [toList_partName, toList_metaName, List.append_right_inj] at hlist
  have hm : 'm' ∈ (toString a).toList := by simp [hlist]
  exact absurd (isDigit_toString a 'm' hm) (by decide)

theorem fileName_of_part (s : String) (rest : List Char)
    (h : s.toList = ['p','a','r','t','.'] ++ rest) (hslash : '/' ∉ rest) : FileName s := by
  have hne : ∀ s' : String, s'.toList.head? ≠ some 'p' → s ≠ s' := by
    rintro s' hs' rfl
    exact hs' (by rw [h]; rfl)
  refine ⟨hne "" (by decide),?_,hne "." (by decide),hne ".." (by decide)⟩
  rw [h]
  simpa using hslash

theorem slash_not_digit : '/' ∉ (toString a).toList := by
  intro h
  exact absurd (isDigit_toString a '/' h) (by decide)

theorem fileName_partName : FileName (partName a) :=
  fileName_of_part _ _ (toList_partName a) (slash_not_digit a)

theorem fileName_metaName : FileName (metaName a) := by
  apply fileName_of_part _ _ (toList_metaName a)
  simpa using slash_not_digit a

end Names

def partsDir (session dataDir : String) : Path := filePath multipartVol session ++ [dataDir]

variable (session dataDir : String)

theorem filePath_dir (h : FileName dataDir) :
    filePath multipartVol (session ++ "/" ++ dataDir) = partsDir session dataDir :=
  filePath_child multipartVol session dataDir h

theorem filePath_part (h : FileName dataDir) (a : UInt32) :
    filePath multipartVol (finalPart session dataDir a) = partsDir session dataDir ++ [partName a] := by
  rw [finalPart, filePath_child _ _ _ (fileName_partName a), filePath_dir session dataDir h]

theorem filePath_meta (h : FileName dataDir) (a : UInt32) :
    filePath multipartVol (finalMeta session dataDir a) = partsDir session dataDir ++ [metaName a] := by
  rw [finalMeta, ← metaName, filePath_child _ _ _ (fileName_metaName a),
    filePath_dir session dataDir h]

theorem vol_above_partsDir :
    [multipartVol] <+: partsDir session dataDir :=
  (prefix_filePath multipartVol session).trans (List.prefix_append _ _)

def stagingDir (stagingId : String) : Path := [stagingVol,stagingId]

theorem filePath_tmp {n : ℕ} (u : PartUpload n) (h : FileName u.stagingId) :
    filePath stagingVol u.tmpPath = stagingDir u.stagingId ++ [partName u.partNumber] := by
  rw [PartUpload.tmpPath, filePath_child _ _ _ (fileName_partName _), filePath,
    segments_name _ h]
  rfl

/-- There is room for parts: no file is in the way to their directory and no
directory has the name of one of their files. -/
structure Roomy (dir : Path) (t : Disk) : Prop where
  way : Passable t dir
  part : ∀ a, look t (dir ++ [partName a]) ≠ some .dir
  sidecar : ∀ a, look t (dir ++ [metaName a]) ≠ some .dir

theorem not_prefix_dir (dir : Path) (x : String) : ¬dir ++ [x] <+: dir := by
  intro h
  have := h.length_le
  simp at this

theorem Roomy.step {dir : Path} {t s : Disk} (h : Roomy dir t)
    (hway : ∀ q, q <+: dir → look s q = look t q ∨ look s q = some .dir)
    (hoff : ∀ q, ¬q <+: dir → look s q = look t q ∨ look s q ≠ some .dir) : Roomy dir s := by
  have hentry : ∀ x, look t (dir ++ [x]) ≠ some .dir → look s (dir ++ [x]) ≠ some .dir := by
    intro x hx
    rcases hoff _ (not_prefix_dir dir x) with he | hne
    · rwa [he]
    · exact hne
  refine ⟨fun q hq => ?_,fun a => hentry _ (h.part a),fun a => hentry _ (h.sidecar a)⟩
  rcases hway q hq with he | hd
  · rw [he]
    exact h.way q hq
  · exact .inr hd

/-- There is room for parts, and `f` says what is off the way to them. -/
structure Leaves (dir : Path) (s : Disk) (f : Path → Option (Kind Bytes)) : Prop where
  room : Roomy dir s
  off : ∀ q, ¬q <+: dir → look s q = f q

theorem Roomy.leaves {dir : Path} {t s : Disk} {f : Path → Option (Kind Bytes)} (h : Roomy dir t)
    (hway : ∀ q, q <+: dir → look s q = look t q ∨ look s q = some .dir)
    (hoff : ∀ q, ¬q <+: dir → look s q = f q) (hf : ∀ q, f q = look t q ∨ f q ≠ some .dir) :
    Leaves dir s f :=
  ⟨h.step hway fun q hq => by rw [hoff q hq]; exact hf q,hoff⟩

section Calls

variable {session dataDir : String} (hdd : FileName dataDir) {t : Disk}
  (hroom : Roomy (partsDir session dataDir) t) (fault : Option IoError)

include hroom

theorem delete_entry (path x : String)
    (hpath : filePath multipartVol path = partsDir session dataDir ++ [x])
    (hentry : look t (partsDir session dataDir ++ [x]) ≠ some .dir) :
    Leaves (partsDir session dataDir) (left (attempt fault (delete multipartVol path false) t))
      (fun q => if q = partsDir session dataDir ++ [x] ∧ fault = none then none else look t q) := by
  cases fault with
  | some e => exact ⟨hroom,fun q _ => by simp [attempt, lift, left]⟩
  | none =>
    have hvol := vol_above_partsDir session dataDir
    have hlook := delete_file multipartVol path x (by decide) hpath hvol hroom.way hentry
    refine hroom.leaves (fun q hq => ?_) (fun q hq => ?_) (fun q => ?_)
    · rw [attempt, hlook, if_neg]
      · split_ifs
        · exact .inr rfl
        · exact .inl rfl
      · rintro rfl
        exact not_prefix_dir _ x hq
    · have hq' : ¬q <+: [multipartVol] := fun h => hq (h.trans hvol)
      rw [attempt, hlook, if_neg hq']
      simp
    · split_ifs
      · exact .inr (by simp)
      · exact .inl rfl

include hdd

variable {r : EStateM.Result IoError Disk Unit}

theorem make_dir (hr : attempt fault (makeDirAll multipartVol (session ++ "/" ++ dataDir)) t = r) :
    Leaves (partsDir session dataDir) (left r) (look t) ∧ failureOf (value r) = fault := by
  subst hr
  cases fault with
  | some e => exact ⟨⟨hroom,fun q _ => rfl⟩,rfl⟩
  | none =>
    obtain ⟨s,hs,hgrown⟩ := makeDirAll_made multipartVol (session ++ "/" ++ dataDir) (t := t)
      (by decide) (by rw [filePath_dir session dataDir hdd]; exact hroom.way)
    rw [filePath_dir session dataDir hdd] at hgrown
    rw [attempt, hs]
    refine ⟨hroom.leaves (fun q hq => ?_) (fun q hq => ?_) (fun q => .inl rfl),rfl⟩
    · exact .inr (by rw [left, (hgrown q).1, if_pos hq])
    · rw [left, (hgrown q).1, if_neg hq]

theorem write_sidecar (a : UInt32) (bytes : Bytes)
    (hr : attempt fault (writeFile multipartVol (finalMeta session dataDir a) bytes) t = r) :
    Leaves (partsDir session dataDir) (left r)
      (fun q => if q = partsDir session dataDir ++ [metaName a] ∧ fault = none then some (.file bytes)
        else look t q) ∧
    failureOf (value r) = fault := by
  subst hr
  cases fault with
  | some e => exact ⟨⟨hroom,fun q _ => by simp [attempt, lift, left]⟩,rfl⟩
  | none =>
    obtain ⟨s,hs,hlook⟩ := writeFile_written multipartVol _ _ (by decide)
      (filePath_meta session dataDir hdd a) (vol_above_partsDir session dataDir) bytes hroom.way
      (hroom.sidecar a)
    rw [attempt, hs]
    refine ⟨hroom.leaves (fun q hq => ?_) (fun q hq => ?_) (fun q => ?_),rfl⟩
    · rw [left, hlook, if_neg, if_pos hq]
      · exact .inr rfl
      · rintro rfl
        exact not_prefix_dir _ _ hq
    · rw [left, hlook, if_neg hq]
      simp
    · split_ifs
      · exact .inr (by simp)
      · exact .inl rfl

theorem rename_part {n : ℕ} (u : PartUpload n) (hid : FileName u.stagingId) (bytes : Bytes)
    (htmp : look t (stagingDir u.stagingId ++ [partName u.partNumber]) = some (.file bytes))
    (hr : attempt fault (renameFile stagingVol u.tmpPath multipartVol
      (finalPart session dataDir u.partNumber)) t = r) :
    Leaves (partsDir session dataDir) (left r)
      (fun q => if q = partsDir session dataDir ++ [partName u.partNumber] ∧ fault = none
        then some (.file bytes)
        else if q = stagingDir u.stagingId ++ [partName u.partNumber] ∧ fault = none then none
        else look t q) ∧
    failureOf (value r) = fault := by
  subst hr
  cases fault with
  | some e => exact ⟨⟨hroom,fun q _ => by simp [attempt, lift, left]⟩,rfl⟩
  | none =>
    have hoff : ¬filePath stagingVol u.tmpPath <+: partsDir session dataDir := by
      rw [filePath_tmp u hid, partsDir, filePath, stagingDir]
      simp [stagingVol, multipartVol]
    obtain ⟨s,hs,hlook⟩ := renameFile_moved multipartVol _ _ stagingVol u.tmpPath (by decide)
      (by decide) (filePath_part session dataDir hdd u.partNumber)
      (vol_above_partsDir session dataDir) hroom.way (hroom.part u.partNumber) bytes
      (by rw [filePath_tmp u hid]; exact htmp) (by rw [filePath_tmp u hid]; simp [stagingDir]) hoff
    rw [filePath_tmp u hid] at hlook
    rw [attempt, hs]
    refine ⟨hroom.leaves (fun q hq => ?_) (fun q hq => ?_) (fun q => ?_),rfl⟩
    · rw [left, hlook, if_neg, if_neg, if_pos hq]
      · exact .inr rfl
      · rintro rfl
        rw [filePath_tmp u hid] at hoff
        exact hoff hq
      · rintro rfl
        exact not_prefix_dir _ _ hq
    · rw [left, hlook, if_neg hq]
      simp
    · split_ifs
      · exact .inr (by simp)
      · exact .inr (by simp)
      · exact .inl rfl

end Calls

end Openlake.PartFiles
