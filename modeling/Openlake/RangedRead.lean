import Openlake.ConsensusTolerance
import Openlake.HeldParts
import Openlake.RecordBytes
import Openlake.StripeRoundTrip

/-!
# Ranged reads

A record with inline frames or with held parts holds an object. A GET of it
with a range opens the body at a stripe boundary and cuts off what comes before
and after, so it yields the window of the range out of the whole object.
-/

set_option autoImplicit false

namespace Openlake.RangedRead
open Openlake.Types XlMeta LocalFs GetObject ObjectStreams Promote StripeWriter StripeReader
open MultiPartRead HeldParts Ranges Ec Consensus Lib.Chunks

section Object

variable {n : ℕ} (rs : ReedSolomon) (bucket key : String) (disks : Disks n)

/-- A record and the files it points to hold an object: its frames spell the
bytes, or the files of its parts do. -/
inductive Holds (fi : FileInfo) (xs : Bytes) : Prop
  | inline (frames : List Bytes) (hdata : fi.data = some frames) (hframes : ∀ f ∈ frames, f ≠ [])
      (hbytes : frames.flatten = xs)
  | striped (hinline : hasInline fi = false) (ec : Erasure) (unit : ℕ) (hn : n = ec.total)
      (hpos : 0 < unit) (haligned : unit%512 = 0)
      (hdata : fi.erasure.dataBlocks.toNat = ec.dataShards)
      (hparity : fi.erasure.parityBlocks.toNat = ec.parityShards)
      (hblock : fi.erasure.blockSize.toNat = ec.dataShards*unit) (hdir : fi.dataDir ≠ "")
      (payloads : List Bytes)
      (hparts : List.Forall₂ (PartHeld rs bucket key fi.dataDir disks ec unit) fi.parts payloads)
      (hbytes : payloads.flatten = xs)

theorem openStriped_eq (fi : FileInfo) (ec : Erasure) (unit : ℕ) (hn : n = ec.total)
    (hpos : 0 < unit) (haligned : unit%512 = 0)
    (hdata : fi.erasure.dataBlocks.toNat = ec.dataShards)
    (hparity : fi.erasure.parityBlocks.toNat = ec.parityShards)
    (hblock : fi.erasure.blockSize.toNat = ec.dataShards*unit) (hdir : fi.dataDir ≠ "")
    (offset j intra : ℕ) (hseek : seekPart offset 0 fi.parts = (j,intra)) :
    openStriped bucket key disks fi offset =
      .ok (stripedFrom bucket key fi.dataDir disks ec unit (fi.parts.drop j)
        (intra/(ec.dataShards*unit)),intra%(ec.dataShards*unit)) := by
  have hnew : Erasure.new ec.dataShards ec.parityShards = .ok ec := by
    rw [Erasure.new, dif_pos ⟨ec.data_pos,ec.parity_pos⟩]
  have htotal : ec.dataShards+ec.parityShards = n := hn.symm
  have hunit : ec.dataShards*unit/ec.dataShards = unit := Nat.mul_div_cancel_left unit ec.data_pos
  simp [openStriped, hdata, hparity, hblock, hnew, htotal, hunit, haligned, hdir, hseek,
    ec.data_pos.ne', hpos.ne',
    Except.mapError, bind, Except.bind, pure, Except.pure, stripedFrom, readers]

theorem Holds.opens {fi : FileInfo} {xs : Bytes} (h : Holds rs bucket key disks fi xs)
    (hsize : fi.size.toUInt64.toNat = xs.length) (hne : xs ≠ []) (range : Option ByteRange)
    (hrange : range.isSome → (range.bind (resolve fi.size.toUInt64)).isSome)
    (hwindow : ∀ w ∈ range.bind (resolve fi.size.toUInt64), w.1.toNat < xs.length) :
    ∃ stream, openObject bucket key disks fi range =
        .ok (toObjectInfo bucket fi,range.bind (resolve fi.size.toUInt64),stream) ∧
      Drains (ObjectStream.step rs) stream (cut (range.bind (resolve fi.size.toUInt64)) xs) none := by
  cases h with
  | inline frames hdata hframes hbytes =>
    subst hbytes
    exact openObject_inline rs bucket key disks fi frames hdata (by rintro rfl; exact hne rfl)
      hframes range hrange
  | striped hinline ec unit hn hpos haligned hdata hparity hblock hdir payloads hparts hbytes =>
    subst hbytes
    set window := range.bind (resolve fi.size.toUInt64) with hw
    have hopen : ¬(range.isSome = true ∧ window.isNone = true) := by
      rintro ⟨h1,h2⟩
      have := hrange h1
      simp [Option.isNone_iff_eq_none.mp h2] at this
    have hpositive : fi.size ≠ 0 := by
      intro h0
      rw [h0] at hsize
      exact hne (List.eq_nil_of_length_eq_zero hsize.symm)
    have hoffset : (window.getD (0,fi.size.toUInt64)).1.toNat < payloads.flatten.length := by
      cases hcase : window with
      | none => exact List.length_pos_iff.mpr hne
      | some w => exact hwindow w hcase
    obtain ⟨j,intra,hseek,hsub,hd⟩ := seekPart_drains hn hpos fi.parts payloads hparts _ 0 hoffset
    rw [Nat.zero_add] at hseek
    have hstriped := openStriped_eq bucket key disks fi ec unit hn hpos haligned hdata hparity hblock
      hdir _ j intra hseek
    refine ⟨ranged window (intra%(ec.dataShards*unit)) (window.getD (0,fi.size.toUInt64)).2.toNat
      (.striped (stripedFrom bucket key fi.dataDir disks ec unit (fi.parts.drop j)
        (intra/(ec.dataShards*unit)))),?_,?_⟩
    · simp only [openObject, ← hw, if_neg hopen, openBody, hinline, hpositive, hstriped]
      rfl
    · have hcut := ranged_drains rs window (intra%(ec.dataShards*unit))
        (window.getD (0,fi.size.toUInt64)).2.toNat _ _ (hd.map Body.striped (fun _ => rfl))
      rw [List.drop_drop] at hcut
      cases hcase : window with
      | none => simpa [hcase, cut] using hcut
      | some w =>
        rw [hcase] at hcut hsub
        simp only [Option.getD_some] at hcut hsub
        rw [Nat.sub_add_cancel hsub] at hcut
        simpa [cut] using hcut

variable {H : Type} [DecidableEq H] (o o' : HashOrders H) (blake3 : Bytes → H) (c : MetaCodec)

/-- A GET with a range that resolves yields the window of the range out of
what a GET without a range yields, and the window is not empty and lies in the
object. -/
theorem ranged_get_window (versionId : Option String) (fi : FileInfo) (xs : Bytes)
    (hread : ∃ i, readVersioned o blake3 c bucket key versionId true disks = .ok (i,fi))
    (hread' : ∃ i, readVersioned o' blake3 c bucket key versionId true disks = .ok (i,fi))
    (hholds : Holds rs bucket key disks fi xs) (hsize : fi.size.toUInt64.toNat = xs.length)
    (hne : xs ≠ []) (header : List Char) (range : ByteRange)
    (hheader : parseRangeHeader (some header) = .ok (some range)) (window : UInt64 × UInt64)
    (hwindow : resolve fi.size.toUInt64 range = some window) :
    0 < window.2.toNat ∧ window.1.toNat+window.2.toNat ≤ fi.size.toUInt64.toNat ∧
    ∃ whole part,
      getVersioned o blake3 c bucket key versionId none disks =
        .ok (toObjectInfo bucket fi,none,whole) ∧
      getVersioned o' blake3 c bucket key versionId (some range) disks =
        .ok (toObjectInfo bucket fi,some window,part) ∧
      Drains (ObjectStream.step rs) whole xs none ∧
      Drains (ObjectStream.step rs) part
        ((xs.drop window.1.toNat).take window.2.toNat) none := by
  obtain ⟨hlen,hin⟩ := resolve_window _ range (parseRangeHeader_ordered _ range hheader) window hwindow
  obtain ⟨i,hread⟩ := hread
  obtain ⟨i',hread'⟩ := hread'
  obtain ⟨whole,hwhole,hdrain⟩ := hholds.opens rs bucket key disks hsize hne none (by simp) (by simp)
  have hbind : (some range).bind (resolve fi.size.toUInt64) = some window := hwindow
  obtain ⟨part,hpart,hdrain'⟩ := hholds.opens rs bucket key disks hsize hne (some range)
    (by simp [hbind]) (by
      intro w hw
      obtain rfl := Option.some.inj (hbind.symm.trans hw)
      omega)
  rw [hbind] at hpart hdrain'
  refine ⟨hlen,hin,whole,part,?_,?_,hdrain,hdrain'⟩
  · rw [getVersioned, hread]
    exact hwhole
  · rw [getVersioned, hread']
    exact hpart

end Object

section Sample

open XlMetaRoundTrip Records RecordBytes StripeRoundTrip ConsensusTolerance

/-- Three bytes in one stripe of 512, on two disks that mirror each other. -/
def threeBytes : FileInfo :=
  { buildFileInfo "b" "k" 3 "e" 1 none none (singlePartInfo "e" 3 3 1) with
    versionId := VersionIds.nullVersionId, fresh := false,
    dataDir := "11111111-1111-4111-8111-111111111111" }

def mirrorErasure : ErasureInfo := { defaultErasureInfo 1 1 2 with blockSize := 512 }

def threeTable : List (List VersionRecord) :=
  (List.range 2).map (fun i => recordsOf [indexed threeBytes mirrorErasure i])

theorem threeTable_injective :
    ∀ a ∈ threeTable, ∀ b ∈ threeTable, onDiskMeta a = onDiskMeta b → a = b := by
  decide +kernel

def threeCodec : MetaCodec := tableCodec threeTable Lib.Xxh64.xxh64 threeTable_injective

def threeMeta (i : Fin 2) : Bytes :=
  (encodeVersions threeCodec [indexed threeBytes mirrorErasure i]).toOption.getD []

def threeShard : Bytes := padded 512 [7,8,9]

def threeDisk (i : Fin 2) : Disk :=
  .dir [("b",.dir [("k",.dir [("xl.meta",.file (threeMeta i)),
    (threeBytes.dataDir,.dir [("part.1",.file threeShard)])])])]

theorem three_read : ∃ i, readVersioned smallOrders id threeCodec "b" "k" none true threeDisk =
    .ok (i,indexed threeBytes mirrorErasure 0) :=
  ⟨0,by decide +kernel⟩

theorem three_files (i : Fin 2) :
    fileAt "b" (partPath "k" threeBytes.dataDir 1) (threeDisk i) = some threeShard := by
  revert i
  decide +kernel

theorem three_stored : Stored mirror mirrorCode 512 [7,8,9] [[threeShard,threeShard]] := by
  obtain ⟨shards,hencode,hcode⟩ := encodeStripe_codeword mirror mirrorCode 512 (mirror_mds 512)
    (by decide) (by decide) threeShard (by decide +kernel)
  have hshards : encodeStripe mirror mirrorCode threeShard = .ok [threeShard,threeShard] := by
    decide +kernel
  obtain rfl := Except.ok.inj (hencode.symm.trans hshards)
  exact .cons hcode .nil

theorem three_holds : Holds mirror "b" "k" threeDisk (indexed threeBytes mirrorErasure 0) [7,8,9] := by
  have hcolumns : columns mirrorCode.total [[threeShard,threeShard]] = [threeShard,threeShard] := by
    decide +kernel
  refine .striped rfl mirrorCode 512 rfl (by decide) (by decide) rfl rfl rfl (by decide) [[7,8,9]]
    (.cons ⟨rfl,⟨_,three_stored,fun i bytes hbytes => ?_⟩,?_⟩ .nil) rfl
  · obtain rfl := Option.some.inj ((three_files i).symm.trans hbytes)
    rw [hcolumns]
    fin_cases i <;> rfl
  · decide +kernel

theorem three_last_two :
    parseRangeHeader (some "bytes=-2".toList) = .ok (some (.suffix 2)) ∧
    resolve 3 (.suffix 2) = some (1,2) ∧
    ∃ part, getVersioned smallOrders id threeCodec "b" "k" none (some (.suffix 2)) threeDisk =
        .ok (toObjectInfo "b" (indexed threeBytes mirrorErasure 0),some (1,2),part) ∧
      Drains (ObjectStream.step mirror) part [8,9] none := by
  have hparse : parseRangeHeader (some "bytes=-2".toList) = .ok (some (.suffix 2)) := by
    decide +kernel
  obtain ⟨-,-,-,part,-,hget,-,hdrain⟩ := ranged_get_window mirror "b" "k" threeDisk smallOrders
    smallOrders id threeCodec none _ [7,8,9] three_read three_read three_holds rfl (by simp)
    "bytes=-2".toList (.suffix 2) hparse (1,2) (by decide)
  exact ⟨hparse,by decide,part,hget,hdrain⟩

end Sample

end Openlake.RangedRead
