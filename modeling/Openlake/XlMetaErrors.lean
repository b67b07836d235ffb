import Openlake.XlMeta

/-!
# The errors of the xl.meta decoder

Decoding fails with an error about the file's contents, never with a missing
file, so a reader can tell a broken file from an absent one.
-/

set_option autoImplicit false

namespace Openlake.XlMetaErrors
open Openlake.Types XlMeta

def Found {α : Type} (x : Except IoError α) : Prop :=
  ∀ volume path, x ≠ .error (.fileNotFound volume path)

theorem found_bind {α β : Type} {x : Except IoError α} {f : α → Except IoError β} (hx : Found x)
    (hf : ∀ a, Found (f a)) : Found (x >>= f) := by
  intro volume path h
  cases x with
  | error e => exact hx volume path (by simpa [bind, Except.bind] using h)
  | ok a => exact hf a volume path h

theorem found_ok {α : Type} (a : α) : Found (.ok a : Except IoError α) := fun _ _ h => nomatch h

theorem found_refuse (p : Prop) [Decidable p] (e : IoError)
    (he : ∀ volume path, e ≠ .fileNotFound volume path) : Found (refuse p e) := by
  intro volume path h
  rw [refuse] at h
  split_ifs at h
  exact he volume path (Except.error.inj h)

theorem found_mapError {ε α : Type} (x : Except ε α) (f : ε → IoError)
    (hf : ∀ e volume path, f e ≠ .fileNotFound volume path) : Found (x.mapError f) := by
  intro volume path h
  cases x with
  | error e => exact hf e volume path (Except.error.inj h)
  | ok a => cases h

theorem found_checkAll {α : Type} (f : α → Except IoError Unit) (hf : ∀ a, Found (f a))
    (l : List α) : Found (checkAll f l) := by
  induction l with
  | nil => exact found_ok ()
  | cons a l ih => exact found_bind (hf a) fun _ => ih

theorem found_validatePartsDecoded (i : ℕ) (ps : List ObjectPartInfo) :
    Found (validatePartsDecoded i ps) := by
  induction ps generalizing i with
  | nil => exact found_ok ()
  | cons p ps ih =>
    exact found_bind (found_refuse _ _ nofun) fun _ =>
      found_bind (found_refuse _ _ nofun) fun _ => ih _

theorem found_decodeRecords (bytes : Bytes) (crcEnd : ℕ) (total : Int32) (vs : List VersionRecord) :
    Found (decodeRecords bytes crcEnd total vs) := by
  induction vs with
  | nil => exact found_ok []
  | cons v vs ih =>
    refine found_bind ?_ fun _ => found_bind ih fun _ => found_ok _
    intro volume path h
    rw [decodeInline] at h
    simp only at h
    split_ifs at h <;> cases h

theorem found_decodeAll (c : MetaCodec) (bytes : Bytes) : Found (decodeAll c bytes) := by
  have hvalid : ∀ v, Found (validateDecodedVersion v) := by
    intro v
    rw [validateDecodedVersion]
    iterate 3 refine found_bind (found_refuse _ _ nofun) fun _ => ?_
    refine found_bind (found_mapError _ _ nofun) fun _ => ?_
    iterate 6 refine found_bind (found_refuse _ _ nofun) fun _ => ?_
    exact found_validatePartsDecoded 0 _
  rw [decodeAll]
  iterate 8 refine found_bind (found_refuse _ _ nofun) fun _ => ?_
  refine found_bind (found_mapError _ _ nofun) fun _ => ?_
  refine found_bind (found_refuse _ _ nofun) fun _ => ?_
  exact found_bind (found_checkAll _ hvalid _) fun _ => found_decodeRecords _ _ _ _

theorem found_decode (c : MetaCodec) (bytes : Bytes) : Found (decode c bytes) :=
  found_bind (found_decodeAll c bytes) fun l => by cases l <;> exact nofun

theorem found_findVersion (c : MetaCodec) (bytes : Bytes) (id : String) :
    Found (findVersion c bytes id) :=
  found_bind (found_decodeAll c bytes) fun _ => found_ok _

end Openlake.XlMetaErrors
