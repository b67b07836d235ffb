import Openlake.Ec
import Openlake.Streams
import Openlake.VersionIds

/-!
# Writing a payload in stripes

The writer cuts the source into stripes of `D` shard units, pads the last one with
zeros, encodes each and appends shard `i` to sink `i`. For every way the source is
chunked, the sinks receive the columns of the payload's codewords and the etag is
the digest of the payload.
-/

set_option autoImplicit false

namespace Openlake.StripeWriter
open Openlake.Types Ec Streams VersionIds Lib.Chunks

section Writer

variable {S : Type} (md5 : Bytes → Bytes) (rs : ReedSolomon) (ec : Erasure)
  (writeAll : S → Bytes → Except IoError S)

def fillStripe (size consumed want : ℕ) (carry : Bytes) (src : ByteSource) :
    Except IoError (Bytes × Bytes × ByteSource) :=
  match gather want [] carry src with
  | .full buf carry rest => .ok (buf,carry,rest)
  | .ended buf => .error (.io .unexpectedEof ("EC put: source ended at " ++
      toString (consumed+buf.length) ++ "/" ++ toString size))
  | .failed e => .error e

def encodeError (e : String) : IoError := .invalidArgument ("EC encode: " ++ e)

def writeShards : List S → List Bytes → Except IoError (List S)
  | sink::sinks,shard::shards => do
    let sink ← writeAll sink shard
    let sinks ← writeShards sinks shards
    return sink::sinks
  | sinks,_ => .ok sinks

def writeStripes (size stripeData : ℕ) : (stripes consumed : ℕ) → (hashed carry : Bytes) →
    ByteSource → List S → Except IoError (String × List S)
  | 0,_,hashed,_,_,sinks => .ok (hexLower (md5 hashed),sinks)
  | stripes+1,consumed,hashed,carry,src,sinks => do
    let want := min (size-consumed) stripeData
    let (buf,carry,src) ← fillStripe size consumed want carry src
    let shards ← (encodeStripe rs ec (buf ++ List.replicate (stripeData-want) 0)).mapError
      encodeError
    let sinks ← writeShards writeAll sinks shards
    writeStripes size stripeData stripes (consumed+want) (hashed ++ buf) carry src sinks

def encodeAndWriteStripes (src : ByteSource) (size stripeData stripes : ℕ) (sinks : List S) :
    Except IoError (String × List S) :=
  writeStripes md5 rs ec writeAll size stripeData stripes 0 [] [] src sinks

end Writer

def appendSink (sink shard : Bytes) : Except IoError Bytes := .ok (sink ++ shard)

def padded (width : ℕ) (xs : Bytes) : Bytes := xs ++ List.replicate (width-xs.length) 0

def stripesOf (width : ℕ) : ℕ → Bytes → List Bytes
  | 0,_ => []
  | k+1,xs => padded width (xs.take width)::stripesOf width k (xs.drop width)

def columns (total : ℕ) : List (List Bytes) → List Bytes
  | [] => List.replicate total []
  | w::ws => List.zipWith (· ++ ·) w (columns total ws)

@[simp] theorem length_stripesOf (width k : ℕ) (xs : Bytes) : (stripesOf width k xs).length = k := by
  induction k generalizing xs with
  | zero => rfl
  | succ k ih => simp [stripesOf, ih]

theorem length_columns (total : ℕ) (ws : List (List Bytes)) (h : ∀ w ∈ ws, w.length = total) :
    (columns total ws).length = total := by
  induction ws with
  | nil => simp [columns]
  | cons w ws ih =>
    have hw := h w List.mem_cons_self
    simp [columns, hw, ih fun v hv => h v (List.mem_cons_of_mem _ hv)]

theorem length_padded (width : ℕ) (xs : Bytes) (h : xs.length ≤ width) :
    (padded width xs).length = width := by
  simp [padded]
  omega

theorem flatten_stripesOf_take (width k : ℕ) (xs : Bytes) (h : xs.length ≤ k*width) :
    (stripesOf width k xs).flatten.take xs.length = xs := by
  induction k generalizing xs with
  | zero =>
    rw [Nat.zero_mul] at h
    rw [List.length_eq_zero_iff.mp (Nat.le_zero.mp h)]
    rfl
  | succ k ih =>
    rw [Nat.succ_mul] at h
    rw [stripesOf, List.flatten_cons, List.take_append]
    rcases Nat.le_total xs.length width with hle | hle
    · rw [List.take_of_length_le hle, length_padded width xs hle, Nat.sub_eq_zero_of_le hle]
      simp [padded]
    · have hfull : padded width (xs.take width) = xs.take width := by
        simp [padded, hle]
      have hlen : (xs.take width).length = width := by simp [hle]
      have htail := ih (xs.drop width) (by simp; omega)
      rw [List.length_drop] at htail
      rw [hfull, hlen, htail, List.take_of_length_le (by rw [hlen]; exact hle),
        List.take_append_drop]

theorem writeShards_append (sinks shards : List Bytes) (h : sinks.length = shards.length) :
    writeShards appendSink sinks shards = .ok (List.zipWith (· ++ ·) sinks shards) := by
  induction sinks generalizing shards with
  | nil =>
    cases shards with
    | nil => rfl
    | cons shard shards => cases h
  | cons sink sinks ih =>
    cases shards with
    | nil => cases h
    | cons shard shards =>
      rw [writeShards, ih shards (by simpa using h)]
      rfl

theorem zipWith_append_assoc (xs ys zs : List Bytes) :
    List.zipWith (· ++ ·) (List.zipWith (· ++ ·) xs ys) zs =
      List.zipWith (· ++ ·) xs (List.zipWith (· ++ ·) ys zs) := by
  induction xs generalizing ys zs with
  | nil => simp
  | cons x xs ih => cases ys <;> cases zs <;> simp [ih]

theorem zipWith_append_replicate (xs : List Bytes) :
    List.zipWith (· ++ ·) xs (List.replicate xs.length []) = xs := by
  induction xs with
  | nil => rfl
  | cons x xs ih => simp [List.replicate_succ, ih]

theorem zipWith_replicate_append (xs : List Bytes) (total : ℕ) (h : xs.length = total) :
    List.zipWith (· ++ ·) (List.replicate total []) xs = xs := by
  subst h
  induction xs with
  | nil => rfl
  | cons x xs ih => simp [List.replicate_succ, ih]

theorem fillStripe_ok (size consumed want : ℕ) (carry : Bytes) (src : ByteSource)
    (h : want ≤ (carry ++ contents src).length) :
    ∃ carry' rest, fillStripe size consumed want carry src =
        .ok ((carry ++ contents src).take want,carry',rest) ∧
      carry' ++ contents rest = (carry ++ contents src).drop want := by
  obtain ⟨carry',rest,hg,hrest,-⟩ := gather_full want [] carry src (Nat.zero_le _) h
  exact ⟨carry',rest,by rw [fillStripe, hg]; rfl,hrest⟩

theorem codewords_total (rs : ReedSolomon) (ec : Erasure) (unit : ℕ) (stripes : List Bytes)
    (ws : List (List Bytes)) (h : List.Forall₂ (Codeword rs ec unit) stripes ws) :
    ∀ w ∈ ws, w.length = ec.total := by
  induction h with
  | nil => simp
  | cons hw _ ih => simpa [hw.total] using ih

section WriterSpec

variable (md5 : Bytes → Bytes) (rs : ReedSolomon) (ec : Erasure) (unit : ℕ) (hmds : Mds rs ec unit)
  (hpos : 0 < unit) (heven : unit%2 = 0)

include hmds hpos heven

theorem writeStripes_ok (size stripes consumed : ℕ) (hashed carry : Bytes) (src : ByteSource)
    (sinks : List Bytes) (payload : Bytes) (hsize : consumed+payload.length = size)
    (hstripes : payload.length ≤ stripes*(ec.dataShards*unit))
    (hahead : payload <+: carry ++ contents src) (hsinks : sinks.length = ec.total) :
    ∃ ws, List.Forall₂ (Codeword rs ec unit)
        (stripesOf (ec.dataShards*unit) stripes payload) ws ∧
      writeStripes md5 rs ec appendSink size (ec.dataShards*unit) stripes consumed hashed carry
          src sinks =
        .ok (hexLower (md5 (hashed ++ payload)),
          List.zipWith (· ++ ·) sinks (columns ec.total ws)) := by
  induction stripes generalizing consumed hashed carry src sinks payload with
  | zero =>
    obtain rfl : payload = [] := List.length_eq_zero_iff.mp (by omega)
    refine ⟨[],.nil,?_⟩
    rw [writeStripes, List.append_nil, columns, ← hsinks, zipWith_append_replicate]
  | succ stripes ih =>
    set width := ec.dataShards*unit with hwidth
    have hwant : min (size-consumed) width = min payload.length width := by
      rw [← hsize, Nat.add_sub_cancel_left]
    have hroom : min payload.length width ≤ (carry ++ contents src).length :=
      (Nat.min_le_left _ _).trans hahead.length_le
    obtain ⟨carry',rest,hfill,hrest⟩ :=
      fillStripe_ok size consumed (min payload.length width) carry src hroom
    obtain ⟨tail,htail⟩ := hahead
    have hbuf : (carry ++ contents src).take (min payload.length width) = payload.take width := by
      rw [← htail, List.take_append_of_le_length (Nat.min_le_left _ _), Nat.min_comm,
        List.take_eq_take_iff]
      omega
    have hstripe : payload.take width ++ List.replicate (width-min payload.length width) 0 =
        padded width (payload.take width) := by
      rw [padded, List.length_take, Nat.min_comm]
    have hlen : (padded width (payload.take width)).length = width :=
      length_padded width _ (by simp)
    obtain ⟨w,henc,hword⟩ := encodeStripe_codeword rs ec unit hmds hpos heven _ hlen
    have hnext : payload.drop width <+: carry' ++ contents rest := by
      rw [hrest, ← htail]
      rcases Nat.le_total payload.length width with hle | hle
      · rw [List.drop_of_length_le hle]
        exact List.nil_prefix
      · rw [Nat.min_eq_right hle, List.drop_append_of_le_length hle]
        exact List.prefix_append _ _
    have hsinks' : (List.zipWith (· ++ ·) sinks w).length = ec.total := by
      simp [hsinks, hword.total]
    obtain ⟨ws,hws,hrun⟩ := ih (consumed+min payload.length width) (hashed ++ payload.take width)
      carry' rest (List.zipWith (· ++ ·) sinks w) (payload.drop width) (by simp; omega)
      (by rw [List.length_drop]; rw [Nat.succ_mul] at hstripes; omega) hnext hsinks'
    refine ⟨w::ws,.cons hword hws,?_⟩
    rw [writeStripes, hwant, hfill, hbuf]
    simp only [bind, Except.bind, hstripe, henc, Except.mapError,
      writeShards_append sinks w (by rw [hsinks, hword.total])]
    rw [hrun, List.append_assoc, List.take_append_drop, zipWith_append_assoc, columns]

/-- For every chunking of a source that holds `payload`, the writer stores the
columns of the payload's codewords and returns the payload's etag. -/
theorem encodeAndWriteStripes_ok (src : ByteSource) (stripes : ℕ) (payload : Bytes)
    (hstripes : payload.length ≤ stripes*(ec.dataShards*unit))
    (hahead : payload <+: contents src) :
    ∃ ws, List.Forall₂ (Codeword rs ec unit)
        (stripesOf (ec.dataShards*unit) stripes payload) ws ∧
      encodeAndWriteStripes md5 rs ec appendSink src payload.length (ec.dataShards*unit) stripes
          (List.replicate ec.total []) =
        .ok (hexLower (md5 payload),columns ec.total ws) := by
  obtain ⟨ws,hws,hrun⟩ := writeStripes_ok md5 rs ec unit hmds hpos heven payload.length stripes 0 []
    [] src (List.replicate ec.total []) payload (by simp) hstripes (by simpa using hahead) (by simp)
  refine ⟨ws,hws,?_⟩
  have hcol := length_columns ec.total ws (codewords_total rs ec unit _ ws hws)
  rw [encodeAndWriteStripes, hrun, List.nil_append, zipWith_replicate_append _ _ hcol]

end WriterSpec

end Openlake.StripeWriter
