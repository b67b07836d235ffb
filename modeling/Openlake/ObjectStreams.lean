import Openlake.GetObject

/-!
# Draining what a GET opens

A window over a body yields that part of the body's bytes. The frames of an
inline record are such a body, and the range of the request is their window.
-/

set_option autoImplicit false

namespace Openlake.ObjectStreams
open Openlake.Types XlMeta GetObject Promote Streams Ranges Ec Lib.Chunks

def cut (window : Option (UInt64 × UInt64)) (xs : Bytes) : Bytes :=
  window.elim xs (fun w => (xs.drop w.1.toNat).take w.2.toNat)

variable (rs : ReedSolomon)

theorem rope_drains (frames : List Bytes) (h : ∀ f ∈ frames, f ≠ []) :
    Drains (Body.step rs) (.rope (ropeByteStream frames)) frames.flatten none := by
  rw [← contents_rope frames h, ← ending_rope frames]
  exact (source_drains (ropeByteStream frames)).map Body.rope (fun _ => rfl)

theorem ranged_drains (window : Option (UInt64 × UInt64)) (skip length : ℕ) (body : Body)
    (xs : Bytes) (h : Drains (Body.step rs) body xs none) :
    Drains (ObjectStream.step rs) (ranged window skip length body)
      (if window.isSome then (xs.drop skip).take length else xs) none := by
  rw [ranged]
  split_ifs
  · exact (skipTake_drains (Body.step rs) body xs h skip length).map ObjectStream.window
      (fun _ => rfl)
  · exact h.map ObjectStream.whole (fun _ => rfl)

theorem openObject_window {n : ℕ} (bucket key : String) (disks : Disks n) (fi : FileInfo)
    (range : Option ByteRange) (info : ObjectInfo) (window : Option (UInt64 × UInt64))
    (stream : ObjectStream) (h : openObject bucket key disks fi range = .ok (info,window,stream))
    (hwindow : range.isSome → window.isSome) (hrange : range.isSome) :
    (range.bind (resolve fi.size.toUInt64)).isSome := by
  by_contra hnone
  have hopen : range.isSome ∧ (range.bind (resolve fi.size.toUInt64)).isNone := by
    refine ⟨hrange,?_⟩
    rwa [Option.isNone_iff_eq_none, ← Option.not_isSome_iff_eq_none]
  simp only [openObject, if_pos hopen] at h
  obtain ⟨-,hw⟩ := Prod.mk.inj (Except.ok.inj h)
  rw [← (Prod.mk.inj hw).1] at hwindow
  cases hwindow hrange

theorem openObject_inline {n : ℕ} (bucket key : String) (disks : Disks n) (fi : FileInfo)
    (frames : List Bytes) (hdata : fi.data = some frames) (hne : frames ≠ [])
    (hframes : ∀ f ∈ frames, f ≠ []) (range : Option ByteRange)
    (hrange : range.isSome → (range.bind (resolve fi.size.toUInt64)).isSome) :
    ∃ stream, openObject bucket key disks fi range =
        .ok (toObjectInfo bucket fi,range.bind (resolve fi.size.toUInt64),stream) ∧
      Drains (ObjectStream.step rs) stream
        (cut (range.bind (resolve fi.size.toUInt64)) frames.flatten) none := by
  have hinline : hasInline fi := by
    rw [hasInline, hdata]
    simpa using hne
  set window := range.bind (resolve fi.size.toUInt64) with hwindow
  have hopen : ¬(range.isSome = true ∧ window.isNone = true) := by
    rintro ⟨h1,h2⟩
    rw [Option.isNone_iff_eq_none] at h2
    have := hrange h1
    simp [h2] at this
  refine ⟨ranged window (window.getD (0,fi.size.toUInt64)).1.toNat
    (window.getD (0,fi.size.toUInt64)).2.toNat (.rope (ropeByteStream frames)),?_,?_⟩
  · simp only [openObject, ← hwindow, if_neg hopen, openBody, hinline, hdata, Option.getD_some]
    rfl
  · have hd := ranged_drains rs window (window.getD (0,fi.size.toUInt64)).1.toNat
      (window.getD (0,fi.size.toUInt64)).2.toNat _ _ (rope_drains rs frames hframes)
    cases hw : window with
    | none => simpa [hw, cut] using hd
    | some w => simpa [hw, cut] using hd

end Openlake.ObjectStreams
