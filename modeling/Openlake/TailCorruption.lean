import Openlake.InlineTail
import Openlake.ObjectStreams
import Openlake.SetRecords
import Openlake.StripeRoundTrip

/-!
# Inline objects with corrupted tails

The votes of a read compare records, not payloads. With the tails of some metadata
files replaced, the disks whose tail became too short drop out of the votes, and
the others cast the ballots they cast before.
-/

set_option autoImplicit false

namespace Openlake.TailCorruption
open Openlake.Types XlMeta LocalFs Promote Consensus ConsensusVerdict ConsensusUniform
open ConsensusTolerance SetRecords Records GetObject InlineTail ObjectStreams Ranges Ec
open StripeRoundTrip Lib.FileTree Lib.Effects Lib.Chunks

section Spoiling

variable {n : ℕ}

/-- The metadata files before and after some tails were replaced. -/
structure Spoiled (bucket key : String) (raws tails : Fin n → Bytes) (disks disks' : Disks n) :
    Prop where
  before : ∀ i, Lib.FileTree.readFile (disks i) (metaPath bucket key) = .ok (raws i)
  after : ∀ i, Lib.FileTree.readFile (disks' i) (metaPath bucket key) =
    .ok (retail (raws i) (tails i))

def spoiledOn (raws tails : Fin n → Bytes) : ℕ :=
  (List.finRange n).countP (fun i => retail (raws i) (tails i) ≠ raws i)

def shortOn (c : MetaCodec) (raws tails : Fin n → Bytes) : ℕ :=
  (List.finRange n).countP (fun i => tailShort c (raws i) (tails i))

variable {c : MetaCodec} {bucket key : String} {versionId : Option String} {P : ℕ}
  {fi : FileInfo} {disks disks' : Disks n} {raws tails : Fin n → Bytes}
  (h : OnAllDisks c bucket key versionId true P fi disks)
  (hs : Spoiled bucket key raws tails disks disks')

include h hs

theorem retailed (i : Fin n) : Retailed c bucket key (raws i) (tails i) versionId
    (indexed fi (setErasure n P) i) := by
  apply versionFrom_retail
  rw [← readVersion_of_file c bucket key (disks i) _ (hs.before i), h.reads i]

def servedFrom (c : MetaCodec) (versionId : Option String) (P : ℕ) (fi : FileInfo)
    (raws tails : Fin n → Bytes) (i : Fin n) : FileInfo :=
  { indexed fi (setErasure n P) i with
    data := fi.data.map (fun _ => [payloadIn c versionId (raws i) (tails i)]) }

theorem probe_spoiled (i : Fin n) :
    (tailShort c (raws i) (tails i) = false ∧
      value (readVersion c bucket key versionId true (disks' i)) =
        .ok (servedFrom c versionId P fi raws tails i)) ∨
    (tailShort c (raws i) (tails i) = true ∧ ∃ v p msg,
      value (readVersion c bucket key versionId true (disks' i)) =
        .error (.corruptMetadata v p msg)) := by
  have hr := retailed h hs i
  rw [readVersion_of_file c bucket key (disks' i) _ (hs.after i)]
  cases ht : tailShort c (raws i) (tails i) with
  | false => exact .inl ⟨rfl,hr.fits ht⟩
  | true => exact .inr ⟨rfl,hr.short ht⟩

theorem short_spoiled (i : Fin n) (ht : tailShort c (raws i) (tails i) = true) :
    retail (raws i) (tails i) ≠ raws i := by
  intro hsame
  obtain ⟨v,p,msg,herr⟩ := (retailed h hs i).short ht
  have hread := h.reads i
  rw [readVersion_of_file c bucket key (disks i) _ (hs.before i), ← hsame, herr] at hread
  cases hread

theorem shortOn_le : shortOn c raws tails ≤ spoiledOn raws tails := by
  apply List.countP_mono_left
  intro i _ ht
  simpa using short_spoiled h hs i ht

theorem probes_get (i : Fin n) (fi' : FileInfo) :
    (probes c bucket key versionId true disks')[i.val]? = some (.ok fi') ↔
      tailShort c (raws i) (tails i) = false ∧ fi' = servedFrom c versionId P fi raws tails i := by
  rw [probes, List.getElem?_ofFn, dif_pos i.isLt]
  rcases probe_spoiled h hs i with ⟨ht,hr⟩ | ⟨ht,v,p,msg,hr⟩
  · simp [hr, ht, eq_comm]
  · simp [hr, ht]

theorem probes_mem (fi' : FileInfo) (hmem : .ok fi' ∈ probes c bucket key versionId true disks') :
    ∃ i, fi' = servedFrom c versionId P fi raws tails i := by
  obtain ⟨i,hi⟩ := List.mem_ofFn.mp hmem
  rcases probe_spoiled h hs i with ⟨-,hr⟩ | ⟨-,v,p,msg,hr⟩
  · exact ⟨i,(Except.ok.inj (hr.symm.trans hi)).symm⟩
  · rw [hr] at hi
    cases hi

theorem length_records_spoiled :
    (records (probes c bucket key versionId true disks')).length = n-shortOn c raws tails := by
  have hcount : (records (probes c bucket key versionId true disks')).length =
      (List.finRange n).countP (fun i => ¬tailShort c (raws i) (tails i) = true) := by
    rw [records, metasOf, probes, List.ofFn_eq_map, List.map_map, List.reduceOption,
      List.filterMap_map, List.length_filterMap_eq_countP]
    apply List.countP_congr
    intro i _
    rcases probe_spoiled h hs i with ⟨ht,hr⟩ | ⟨ht,v,p,msg,hr⟩
    · simp [hr, ht, Except.toOption]
    · simp [hr, ht, Except.toOption]
  have hsplit := List.length_eq_countP_add_countP
    (fun i : Fin n => tailShort c (raws i) (tails i)) (l := List.finRange n)
  rw [List.length_finRange] at hsplit
  rw [hcount, shortOn]
  omega

theorem gated_spoiled : Gated (probes c bucket key versionId true disks') ↔
    half n ≤ shortOn c raws tails := by
  have hlength : (probes c bucket key versionId true disks').length = n := List.length_ofFn
  have hshort : shortOn c raws tails ≤ n := List.countP_le_length.trans (by simp)
  have hballots := errorBallots_uniform (probes c bucket key versionId true disks')
    .corruptMetadata (fun e he => by
      obtain ⟨i,hi⟩ := List.mem_ofFn.mp he
      rcases probe_spoiled h hs i with ⟨-,hr⟩ | ⟨-,v,p,msg,hr⟩
      · rw [hr] at hi
        cases hi
      · rw [hr] at hi
        cases hi
        exact ⟨rfl,rfl⟩)
  rw [length_records_spoiled h hs, hlength, Nat.sub_sub_self hshort] at hballots
  rw [Gated, hballots, hlength]
  constructor
  · rintro ⟨t,ht⟩
    exact ht.trans (List.count_le_length.trans (by simp))
  · exact fun hhalf => ⟨.corruptMetadata,by rwa [List.count_replicate_self]⟩

theorem uniform_spoiled {H : Type} (blake3 : Bytes → H) (e : String) (hne : e ≠ "")
    (he : etagOf fi = some e) :
    Uniform blake3 (probes c bucket key versionId true disks')
      (parityVote n (indexed fi (setErasure n P) 0)) e
      (decodeContractHash blake3 (indexed fi (setErasure n P) 0)) where
  etag_ne := hne
  valid r hr := by
    obtain ⟨i,rfl⟩ := probes_mem h hs r hr
    exact h.valid i i.isLt
  parity r hr := by
    obtain ⟨i,rfl⟩ := probes_mem h hs r hr
    rw [probes, List.length_ofFn]
    rfl
  etag r hr := by
    obtain ⟨i,rfl⟩ := probes_mem h hs r hr
    exact he
  contract r hr := by
    obtain ⟨i,rfl⟩ := probes_mem h hs r hr
    rfl

/-- With few corrupted tails, a record is read exactly while the short ones stay
below half of the set, from the lowest disk whose tail is long enough. -/
theorem read_spoiled_iff {H : Type} [DecidableEq H] (o : HashOrders H) (blake3 : Bytes → H)
    (hfew : spoiledOn raws tails ≤ P) (r : ℕ × FileInfo) :
    readVersioned o blake3 c bucket key versionId true disks' = .ok r ↔
      shortOn c raws tails < half n ∧ ∃ i : Fin n, r = (i.val,servedFrom c versionId P fi raws tails i) ∧
        tailShort c (raws i) (tails i) = false ∧
        ∀ j < i, tailShort c (raws j) (tails j) = true := by
  obtain ⟨e,hne,he⟩ := h.etag
  have hu := uniform_spoiled h hs blake3 e hne he
  have hlength : (probes c bucket key versionId true disks').length = n := List.length_ofFn
  rw [readVersioned, hu.readWithConsensus_eq_ok o bucket key, gated_spoiled h hs,
    length_records_spoiled h hs, not_le, hlength]
  obtain ⟨m,fi'⟩ := r
  rw [served_eq_some]
  constructor
  · rintro ⟨hhalf,-,hm,hlow⟩
    have hlt : m < n := by
      rw [← hlength]
      exact (List.getElem?_eq_some_iff.mp hm).1
    obtain ⟨ht,rfl⟩ := (probes_get h hs ⟨m,hlt⟩ fi').mp hm
    refine ⟨hhalf,⟨m,hlt⟩,rfl,ht,fun j hj => ?_⟩
    by_contra hfalse
    exact hlow j hj _ ((probes_get h hs j _).mpr ⟨by simpa using hfalse,rfl⟩)
  · rintro ⟨hhalf,i,heq,ht,hlow⟩
    obtain ⟨rfl,rfl⟩ := Prod.mk.inj heq
    have hn : 0 < n := i.pos
    have hbounds := layout_bounds h.valid hn
    have hshort := (shortOn_le h hs).trans hfew
    refine ⟨hhalf,?_,(probes_get h hs i _).mpr ⟨ht,rfl⟩,fun j hj r hr => ?_⟩
    · rw [readQuorum_indexed h.valid hn]
      split_ifs <;> omega
    · have hfalse := ((probes_get h hs ⟨j,by omega⟩ r).mp hr).1
      rw [hlow ⟨j,by omega⟩ hj] at hfalse
      cases hfalse

end Spoiling

def quadTails (k i : Fin 4) : Bytes := if i = k then [98] else [97]

def spoiledQuad (k : Fin 4) : Disks 4 := fun i => diskWith (retail (quadMeta i) (quadTails k i))

theorem spoiled_quad (k : Fin 4) :
    Spoiled "b" "k" quadMeta (quadTails k) quadDisks (spoiledQuad k) :=
  ⟨fun _ => rfl,fun _ => rfl⟩

end Openlake.TailCorruption
