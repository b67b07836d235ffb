import Openlake.MultiPartRead
import Openlake.Multipart

/-!
# The shards of a part

The sinks of an upload are files that may fail. Where none does, the writer
fills them as it fills sinks that only append, so an upload that is encoded has
read a whole payload and its sinks hold the columns of the payload's codewords.
-/

set_option autoImplicit false

namespace Openlake.PartEncoding
open Openlake.Types Ec Streams StripeWriter MultiPartRead VersionIds Records Multipart Lib.Chunks
open Lib.Outcomes

section Simulation

variable {S T : Type} (md5 : Bytes → Bytes) (rs : ReedSolomon) (ec : Erasure)
  {f : S → Bytes → Except IoError S} {g : T → Bytes → Except IoError T}
  {R : S → T → Prop}
  (hsim : ∀ s t shard s', R s t → f s shard = .ok s' → ∃ t', g t shard = .ok t' ∧ R s' t')

include hsim

theorem writeShards_sim (ss : List S) (ts : List T) (shards : List Bytes) (ss' : List S)
    (hR : List.Forall₂ R ss ts) (h : writeShards f ss shards = .ok ss') :
    ∃ ts', writeShards g ts shards = .ok ts' ∧ List.Forall₂ R ss' ts' := by
  induction hR generalizing shards ss' with
  | nil =>
    cases shards <;> (obtain rfl := Except.ok.inj h; exact ⟨[],rfl,.nil⟩)
  | @cons s t ss ts hst hrest ih =>
    cases shards with
    | nil =>
      obtain rfl := Except.ok.inj h
      exact ⟨t::ts,rfl,.cons hst hrest⟩
    | cons shard shards =>
      rw [writeShards, bind_eq_ok] at h
      obtain ⟨s',hs,h⟩ := h
      rw [bind_eq_ok] at h
      obtain ⟨ss'',hss,h⟩ := h
      obtain rfl := Except.ok.inj h
      obtain ⟨t',ht,hst'⟩ := hsim s t shard s' hst hs
      obtain ⟨ts',hts,hrest'⟩ := ih shards ss'' hss
      refine ⟨t'::ts',?_,.cons hst' hrest'⟩
      rw [writeShards, ht]
      show (writeShards g ts shards >>= _) = _
      rw [hts]
      rfl

theorem writeStripes_sim (size stripeData stripes consumed : ℕ) (hashed carry : Bytes)
    (src : ByteSource) (ss : List S) (ts : List T) (etag : String) (ss' : List S)
    (hR : List.Forall₂ R ss ts)
    (h : writeStripes md5 rs ec f size stripeData stripes consumed hashed carry src ss =
      .ok (etag,ss')) :
    ∃ ts', writeStripes md5 rs ec g size stripeData stripes consumed hashed carry src ts =
        .ok (etag,ts') ∧ List.Forall₂ R ss' ts' := by
  induction stripes generalizing consumed hashed carry src ss ts with
  | zero =>
    rw [writeStripes] at h
    obtain ⟨rfl,rfl⟩ := Prod.mk.inj (Except.ok.inj h)
    exact ⟨ts,rfl,hR⟩
  | succ stripes ih =>
    rw [writeStripes, bind_eq_ok] at h
    obtain ⟨⟨buf,carry',rest⟩,hfill,h⟩ := h
    rw [bind_eq_ok] at h
    obtain ⟨shards,henc,h⟩ := h
    rw [bind_eq_ok] at h
    obtain ⟨ss'',hss,h⟩ := h
    obtain ⟨ts'',hts,hR''⟩ := writeShards_sim hsim ss ts shards ss'' hR hss
    obtain ⟨ts',hrun,hR'⟩ := ih _ _ _ _ ss'' ts'' hR'' h
    refine ⟨ts',?_,hR'⟩
    rw [writeStripes, hfill]
    show (Except.mapError _ _ >>= _) = _
    rw [henc]
    show (writeShards g ts shards >>= _) = _
    rw [hts]
    exact hrun

end Simulation

section Inversion

variable {S : Type} (md5 : Bytes → Bytes) (rs : ReedSolomon) (ec : Erasure)
  (writeAll : S → Bytes → Except IoError S)

theorem fillStripe_inv (size consumed want : ℕ) (carry : Bytes) (src : ByteSource)
    (r : Bytes × Bytes × ByteSource) (h : fillStripe size consumed want carry src = .ok r) :
    want ≤ (carry ++ contents src).length ∧
      r.2.1 ++ contents r.2.2 = (carry ++ contents src).drop want := by
  by_cases hwant : want ≤ (carry ++ contents src).length
  · obtain ⟨carry',rest,hok,hrest⟩ := fillStripe_ok size consumed want carry src hwant
    rw [hok] at h
    obtain rfl := Except.ok.inj h
    exact ⟨hwant,hrest⟩
  · have hshort := gather_short want [] carry src (by simpa using hwant)
    rw [fillStripe, hshort] at h
    split at h
    · rename_i heq
      split at heq <;> cases heq
    · cases h
    · cases h

theorem writeStripes_reads (size stripeData stripes consumed : ℕ) (hashed carry : Bytes)
    (src : ByteSource) (sinks : List S) (r : String × List S)
    (h : writeStripes md5 rs ec writeAll size stripeData stripes consumed hashed carry src sinks =
      .ok r) :
    min (size-consumed) (stripes*stripeData) ≤ (carry ++ contents src).length := by
  induction stripes generalizing consumed hashed carry src sinks with
  | zero => simp
  | succ stripes ih =>
    rw [writeStripes, bind_eq_ok] at h
    obtain ⟨⟨buf,carry',rest⟩,hfill,h⟩ := h
    obtain ⟨hwant,hrest⟩ := fillStripe_inv _ _ _ _ _ _ hfill
    rw [bind_eq_ok] at h
    obtain ⟨shards,-,h⟩ := h
    rw [bind_eq_ok] at h
    obtain ⟨sinks',-,h⟩ := h
    have hnext := ih _ _ _ _ _ h
    rw [hrest, List.length_drop] at hnext
    rw [Nat.succ_mul]
    omega

end Inversion

theorem length_mem_columns (rs : ReedSolomon) (ec : Erasure) (unit : ℕ) (stripes : List Bytes)
    (ws : List (List Bytes)) (h : List.Forall₂ (Codeword rs ec unit) stripes ws) :
    ∀ col ∈ columns ec.total ws, col.length = stripes.length*unit := by
  induction h with
  | nil => simp [columns, List.mem_replicate]
  | @cons stripe w stripes ws hw _ ih =>
    intro col hcol
    obtain ⟨i,hi,rfl⟩ := List.mem_iff_getElem.mp hcol
    simp only [columns, List.length_zipWith] at hi
    simp only [columns, List.getElem_zipWith, List.length_append, List.length_cons]
    rw [hw.widths _ (List.getElem_mem _), ih _ (List.getElem_mem _), Nat.succ_mul, Nat.add_comm]

section Part

variable {n : ℕ} (md5 : Bytes → Bytes) (rs : ReedSolomon) (u : PartUpload n) (ec : Erasure)

def payload : Bytes := (contents u.src).take u.size.toNat

theorem forall₂_written (hn : n = ec.total) :
    List.Forall₂ (fun (sink : PartSink n) w => sink.written = w)
      (List.ofFn (fun i => ⟨i,0,[]⟩)) (List.replicate ec.total []) := by
  rw [List.forall₂_iff_get]
  exact ⟨by simp [hn],by simp⟩

theorem written_of_forall₂ (sinks : List (PartSink n)) (cols : List Bytes)
    (h : List.Forall₂ (fun sink w => sink.written = w) sinks cols) :
    sinks.map PartSink.written = cols := by
  induction h with
  | nil => rfl
  | cons hw _ ih => rw [List.map_cons, hw, ih]

variable (hmds : Mds rs ec defaultEcPerShardBytes) (hn : n = ec.total)

include hmds hn

theorem encode_ok (hw : ∀ k i, u.faults.writeAll k i = none)
    (hlen : u.size.toNat ≤ (contents u.src).length) :
    ∃ ws sinks, Stored rs ec defaultEcPerShardBytes (payload u) ws ∧
      u.encode md5 rs ec = .ok (hexLower (md5 (payload u)),sinks) ∧
      sinks.map PartSink.written = columns ec.total ws := by
  have hsize : (payload u).length = u.size.toNat := by simp [payload, hlen]
  have hwidth : 0 < ec.dataShards*defaultEcPerShardBytes := Nat.mul_pos ec.data_pos (by decide)
  obtain ⟨ws,hws,hrun⟩ := encodeAndWriteStripes_ok md5 rs ec defaultEcPerShardBytes hmds (by decide)
    (by decide) u.src _ (payload u) (le_stripeCount_mul _ _ hwidth) (List.take_prefix _ _)
  rw [hsize] at hrun
  obtain ⟨sinks,hsinks,hR⟩ := writeStripes_sim md5 rs ec
    (R := fun w (sink : PartSink n) => sink.written = w)
    (g := PartSink.writeAll u.faults.writeAll)
    (by
      rintro w sink shard w' rfl happ
      obtain rfl := Except.ok.inj happ
      exact ⟨_,by rw [PartSink.writeAll, hw],rfl⟩)
    _ _ _ _ _ _ _ _ _ _ _ (forall₂_written ec hn).flip hrun
  exact ⟨ws,sinks,hws,hsinks,written_of_forall₂ _ _ hR.flip⟩

theorem encode_inv (etag : String) (sinks : List (PartSink n))
    (h : u.encode md5 rs ec = .ok (etag,sinks)) :
    (payload u).length = u.size.toNat ∧ etag = hexLower (md5 (payload u)) ∧
      ∃ ws, Stored rs ec defaultEcPerShardBytes (payload u) ws ∧
        sinks.map PartSink.written = columns ec.total ws := by
  have hwidth : 0 < ec.dataShards*defaultEcPerShardBytes := Nat.mul_pos ec.data_pos (by decide)
  obtain ⟨cols,hcols,hR⟩ := writeStripes_sim md5 rs ec
    (R := fun (sink : PartSink n) w => sink.written = w) (g := appendSink)
    (by
      rintro sink w shard sink' rfl hwrite
      refine ⟨_,rfl,?_⟩
      rw [PartSink.writeAll] at hwrite
      split at hwrite
      · cases hwrite
      · obtain rfl := Except.ok.inj hwrite
        rfl)
    _ _ _ _ _ _ _ _ _ _ _ (forall₂_written ec hn) h
  have hread := writeStripes_reads md5 rs ec appendSink _ _ _ _ _ _ _ _ _ hcols
  have hcover := le_stripeCount_mul u.size.toNat _ hwidth
  have hsize : (payload u).length = u.size.toNat := by
    rw [payload, List.length_take, Nat.min_eq_left]
    simpa [PartUpload.stripes, Nat.min_eq_left hcover] using hread
  obtain ⟨ws,hws,hrun⟩ := encodeAndWriteStripes_ok md5 rs ec defaultEcPerShardBytes hmds (by decide)
    (by decide) u.src _ (payload u) (le_stripeCount_mul _ _ hwidth) (List.take_prefix _ _)
  rw [hsize] at hrun
  obtain ⟨rfl,rfl⟩ := Prod.mk.inj (Except.ok.inj (hcols.symm.trans hrun))
  exact ⟨hsize,rfl,ws,hws,written_of_forall₂ _ _ hR⟩

end Part

end Openlake.PartEncoding
