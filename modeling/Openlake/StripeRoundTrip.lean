import Openlake.MultiPartRead

/-!
# What is written in stripes is what is read

An upload is a part number and the chunks its body arrives in. Whatever the
chunking, the shards stored for the parts give back the payload as long as
every stripe finds `D` live shard streams; otherwise the reader yields a prefix
of the payload and then an error.
-/

set_option autoImplicit false

namespace Openlake.StripeRoundTrip
open Openlake.Types Ec Streams StripeWriter StripeReader VersionIds PartRead MultiPartRead
open Lib.Chunks

structure Upload where
  number : Int32
  chunks : List Bytes

namespace Upload

def payload (u : Upload) : Bytes := u.chunks.flatten

def info (u : Upload) : ObjectPartInfo :=
  { number := u.number, actualSize := Int64.ofNat u.payload.length }

/-- The part is not empty, arrives in non-empty chunks, and has a size the
record's `i64` field holds. -/
def Valid (u : Upload) : Prop :=
  u.chunks ≠ [] ∧ (∀ c ∈ u.chunks, c ≠ []) ∧ u.payload.length < 2^63

end Upload

theorem partLen_info (u : Upload) (h : u.payload.length < 2^63) :
    partLen u.info = u.payload.length := by
  rw [partLen, Upload.info]
  simp only [Int64.toUInt64_ofNat']
  exact UInt64.toNat_ofNat_of_lt' (lt_of_lt_of_le h (by decide))

theorem payload_ne_nil (u : Upload) (h : u.Valid) : u.payload ≠ [] := by
  obtain ⟨hne,hchunks,-⟩ := h
  obtain ⟨c,cs,hc⟩ := List.exists_cons_of_ne_nil hne
  have := hchunks c (hc ▸ List.mem_cons_self)
  simp [Upload.payload, hc, this]

section RoundTrip

variable (md5 : Bytes → Bytes) (rs : ReedSolomon) (ec : Erasure) (unit : ℕ)

def store (u : Upload) : Except IoError (String × List Bytes) :=
  encodeAndWriteStripes md5 rs ec appendSink (ropeByteStream u.chunks) u.payload.length
    (ec.dataShards*unit) (stripeCount u.payload.length (ec.dataShards*unit))
    (List.replicate ec.total [])

def reader (backends : List ShardReader) (bucket key dataDir : String) (uploads : List Upload) :
    MultiPartEcStream :=
  { backends := backends, bucket := bucket, key := key, dataDir := dataDir,
    parts := uploads.map Upload.info, startStripe := 0, blockSize := ec.dataShards*unit,
    stripeUnit := unit, ec := ec }

/-- The shard streams of one part: each fails to open, or yields a prefix of
its shard before it ends or fails. -/
def Serves (m : MultiPartEcStream) (u : Upload) (shards : List Bytes) : Prop :=
  Ahead shards (partDeliveries m (partPath m.key m.dataDir u.number) u.payload.length 0)

def AllLive (m : MultiPartEcStream) (uploads : List Upload) : Prop :=
  ∀ u ∈ uploads, PartLive m (partPath m.key m.dataDir u.number) u.payload.length 0

theorem store_ok (hmds : Mds rs ec unit) (hpos : 0 < unit) (heven : unit%2 = 0) (u : Upload)
    (hu : u.Valid) :
    ∃ ws, Stored rs ec unit u.payload ws ∧
      store md5 rs ec unit u = .ok (hexLower (md5 u.payload),columns ec.total ws) := by
  have hwidth : 0 < ec.dataShards*unit := Nat.mul_pos ec.data_pos hpos
  exact encodeAndWriteStripes_ok md5 rs ec unit hmds hpos heven (ropeByteStream u.chunks) _
    u.payload (le_stripeCount_mul _ _ hwidth) (by rw [contents_rope _ hu.2.1]; exact List.prefix_rfl)

theorem parts_deliver (hpos : 0 < unit) (m : MultiPartEcStream) (hec : m.ec = ec)
    (hunit : m.stripeUnit = unit) (hblock : m.blockSize = ec.dataShards*unit)
    (hcur : m.current = none) (hstart : m.startStripe = 0) (uploads : List Upload)
    (hvalid : ∀ u ∈ uploads, u.Valid) (hparts : m.parts = uploads.map Upload.info)
    (words : List (List (List Bytes)))
    (hwords : List.Forall₂ (fun u ws => Stored rs ec unit u.payload ws ∧
      Serves m u (columns ec.total ws)) uploads words) :
    Delivers (MultiPartEcStream.step rs) m (uploads.map Upload.payload).flatten
      (AllLive m uploads) := by
  induction uploads generalizing m words with
  | nil =>
    refine ⟨fun _ => .done _ ?_,fun hl => absurd (fun u hu => by cases hu) hl⟩
    simp [MultiPartEcStream.step, MultiPartEcStream.advance, hcur, hparts, bind, Except.bind, pure,
      Except.pure]
  | cons u uploads ih =>
    cases hwords with
    | @cons _ ws _ words hw hrest =>
    subst hec hunit
    have hu := hvalid u List.mem_cons_self
    have hnext := ih { m with parts := uploads.map Upload.info, startStripe := 0 } rfl rfl hblock
      hcur rfl (fun v hv => hvalid v (List.mem_cons_of_mem _ hv)) rfl words hrest
    have hlen : 0 < u.payload.length := List.length_pos_iff.mpr (payload_ne_nil u hu)
    have hahead : Ahead ((columns m.ec.total ws).map (List.drop (m.startStripe*m.stripeUnit)))
        (partDeliveries m (partPath m.key m.dataDir u.info.number) u.payload.length
          m.startStripe) := by
      rw [hstart, Nat.zero_mul, show List.drop 0 = (id : Bytes → Bytes) from rfl, List.map_id]
      exact hw.2
    have hpart := part_delivers rs m hpos hblock hcur u.info (uploads.map Upload.info) hparts
      u.payload (partLen_info u hu.2.2) ws hw.1 (by rw [hstart]; omega) hahead _ _ hnext
    rw [hstart, Nat.zero_mul, List.drop_zero] at hpart
    have hall : AllLive m (u::uploads) =
        (PartLive m (partPath m.key m.dataDir u.number) u.payload.length 0 ∧ AllLive m uploads) :=
      propext List.forall_mem_cons
    rw [hall]
    exact hpart

end RoundTrip

def mirror : ReedSolomon where
  encode _ _ _ originals := .ok (fun _ => originals.head?)
  decode _ _ _ slots := .ok (fun _ => slots.findSome? id)

def mirrorCode : Erasure := ⟨1,1,by decide,by decide⟩

theorem mirror_mds (unit : ℕ) : Mds mirror mirrorCode unit := by
  intro originals hlen hunit
  obtain ⟨w,rfl⟩ := List.length_eq_one_iff.mp hlen
  refine ⟨fun _ => some w,[w],rfl,rfl,hunit,by simp [mirrorCode],fun slots hs hcount => ?_⟩
  refine ⟨fun _ => slots.findSome? id,rfl,fun i hi hslot => ?_⟩
  obtain rfl : i = 0 := Nat.lt_one_iff.mp hi
  match slots,hs with
  | [o,o'],.cons ho (.cons ho' .nil) =>
    obtain rfl : o = none := by simpa using hslot
    rcases ho' with rfl | rfl
    · simp [mirrorCode] at hcount
    · rfl

def twoParts : List Upload := [⟨1,[[7],[8,9]]⟩,⟨2,[[10]]⟩]

end Openlake.StripeRoundTrip
