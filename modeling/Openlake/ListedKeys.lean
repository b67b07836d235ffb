import Openlake.Listing

/-!
# The keys a set lists

All disks of a set hold the same keys, no key below another, and nothing else.
Then every disk reports the keys that the cursor and the filter admit, in the
order of their paths, and so does the set.
-/

set_option autoImplicit false

namespace Openlake.ListedKeys
open Openlake.Types XlMeta LocalFs GetObject Listing Lib.FileTree Lib.Effects

/-- A disk that holds the keys of `K`, with records that agree with `sig`. -/
structure Stocked (c : MetaCodec) (bucket : String) (sig : String → Signature)
    (K : Finset String) (t : Disk) : Prop where
  named : WellNamed t
  volume : look t [bucket] = some .dir
  only : ∀ p, p ≠ [] → look t (bucket::p ++ [metaFilename]) ≠ none →
    keyOf p ∈ K ∨ ∃ k ∈ K, p ++ [metaFilename] <+: segments k
  reads : ∀ k ∈ K, ∃ fi, value (readVersion c bucket k none false t) = .ok fi ∧
    signature fi = sig k ∧ fi.deleted = false

/-- Keys made of non-empty segments, none at or below another. -/
structure Separate (K : Finset String) : Prop where
  split : ∀ k ∈ K, k ≠ "" ∧ keyOf (segments k) = k
  apart : ∀ k ∈ K, ∀ k' ∈ K, segments k <+: segments k' → k = k'

/-- No key goes through the name of a metadata file in a directory above the
path. -/
def Clear (K : Finset String) (p : Path) : Prop :=
  ∀ a, a <+: p → a ≠ [] → a ≠ p → ∀ k ∈ K, ¬a ++ [metaFilename] <+: segments k

/-- The walk passes every directory above the path and keeps its key. -/
def Admits (o : WalkOptions) (p : Path) : Prop :=
  (∀ a, a <+: p → a ≠ [] → Passes o a) ∧ o.rejects (keyOf p) = false

open Classical in
/-- The keys a walk finds and admits, in the order of their paths. -/
noncomputable def shelf (K : Finset String) (o : WalkOptions) : List Path :=
  ((K.image segments).filter (fun p => Clear K p ∧ Admits o p)).sort (· ≤ ·)

theorem shelf_sorted (K : Finset String) (o : WalkOptions) : (shelf K o).Pairwise (· < ·) :=
  (Finset.sortedLT_sort _).pairwise

theorem mem_shelf (K : Finset String) (o : WalkOptions) (p : Path) :
    p ∈ shelf K o ↔ (∃ k ∈ K, segments k = p) ∧ Clear K p ∧ Admits o p := by
  simp only [shelf, Finset.mem_sort, Finset.mem_filter, Finset.mem_image]

section Disk

variable {c : MetaCodec} {bucket : String} {sig : String → Signature} {K : Finset String}
  {o : WalkOptions} {t : Disk} {k : String}

theorem Stocked.record (h : Stocked c bucket sig K t) (hk : k ∈ K) :
    ∃ bytes, look t (bucket::segments k ++ [metaFilename]) = some (.file bytes) := by
  obtain ⟨fi,hfi,-⟩ := h.reads k hk
  obtain ⟨bytes,hread,-⟩ := readVersion_ok c bucket k t none false fi hfi
  exact ⟨bytes,(readFile_eq_ok _ _ _).mp hread⟩

theorem Stocked.plain (h : Stocked c bucket sig K t) (hK : Separate K) (hk : k ∈ K) :
    PlainKey k := by
  refine ⟨(hK.split k hk).1,(hK.split k hk).2,fun s hs => ?_⟩
  obtain ⟨bytes,hbytes⟩ := h.record hk
  exact h.named _ (by rw [hbytes]; simp) s (by simp [hs])

theorem Stocked.through (h : Stocked c bucket sig K t) (hk : k ∈ K) {a : Path}
    (ha : a <+: segments k) : look t (bucket::a) = some .dir := by
  obtain ⟨bytes,hbytes⟩ := h.record hk
  have hobject := look_above t (bucket::segments k) [] metaFilename _ hbytes
  exact prefix_shows_dir t _ _ hobject (by simpa using ha)

theorem Stocked.route_iff (h : Stocked c bucket sig K t) (hK : Separate K) (p : Path)
    (hp : ∀ s ∈ p, FileName s) (hp0 : p ≠ []) (fi : FileInfo) :
    Route c bucket o t [] p fi ↔
      keyOf p ∈ K ∧ (Clear K p ∧ Admits o p) ∧ FoundAt c bucket t p fi := by
  have hseg := segments_keyOf p hp
  have hdir : ∀ a, FoundAt c bucket t p fi → a <+: p → look t (bucket::a) = some .dir :=
    fun a hfound ha =>
      prefix_shows_dir t _ _ (look_of_found p hp fi hfound) (by simpa using ha)
  constructor
  · rintro ⟨hpass,henter,hfound,hkept⟩
    refine ⟨?_,⟨fun a ha ha0 hap k hk hthrough => ?_,hpass,hkept⟩,hfound⟩
    · obtain ⟨bytes,hread,-⟩ := readVersion_ok c bucket _ t none false fi hfound
      rw [readFile_eq_ok, metaPath, List.nil_append, filePath_keyOf bucket p hp] at hread
      rcases h.only p hp0 (by rw [hread]; simp) with hmem | ⟨k,hk,hthrough⟩
      · exact hmem
      · have hsome := h.through hk hthrough
        rw [← List.cons_append, hread] at hsome
        cases hsome
    · have hnone := henter a ha ha0 hap
      rw [List.nil_append, noRecord_iff h.volume a (fun s hs => hp s (ha.subset hs))
        (hdir a hfound ha), List.cons_append, h.through hk hthrough] at hnone
      cases hnone
  · rintro ⟨hmem,⟨hclear,hpass,hkept⟩,hfound⟩
    refine ⟨hpass,fun a ha ha0 hap => ?_,hfound,hkept⟩
    have hnames : ∀ s ∈ a, FileName s := fun s hs => hp s (ha.subset hs)
    rw [List.nil_append, noRecord_iff h.volume a hnames (hdir a hfound ha)]
    by_contra hmeta
    rcases h.only a ha0 hmeta with hkey | ⟨k,hk,hthrough⟩
    · have heq := hK.apart _ hkey _ hmem (by rwa [segments_keyOf a hnames, hseg])
      apply hap
      rw [← segments_keyOf a hnames, heq, hseg]
    · exact hclear a ha ha0 hap k hk hthrough

variable (hrec : o.recursive = true)
include hrec

theorem Stocked.visited_paths (h : Stocked c bucket sig K t) (hK : Separate K) (fuel : ℕ)
    (hfuel : Within t fuel) : (visited c bucket o t fuel []).map Prod.fst = shelf K o := by
  have hsorted : ((visited c bucket o t fuel []).map Prod.fst).Pairwise (· < ·) :=
    List.pairwise_map.mpr (visited_sorted hrec fuel [])
  apply hsorted.eq_of_mem_iff (shelf_sorted K o)
  intro p
  have hmem := @mem_visited c bucket o t hrec h.named fuel [] (by simp) hfuel
  simp only [List.mem_map, Prod.exists, exists_and_right, exists_eq_right, hmem, List.nil_append,
    mem_shelf]
  constructor
  · rintro ⟨fi,_,rfl,hp0,hp,hroute⟩
    obtain ⟨hkey,hadm,-⟩ := (h.route_iff hK p hp hp0 fi).mp hroute
    exact ⟨⟨keyOf p,hkey,segments_keyOf p hp⟩,hadm⟩
  · rintro ⟨⟨k,hk,rfl⟩,hadm⟩
    have hplain := h.plain hK hk
    obtain ⟨fi,hfi,-⟩ := h.reads k hk
    refine ⟨fi,_,rfl,hplain.segments_ne,hplain.names,?_⟩
    rw [h.route_iff hK _ hplain.names hplain.segments_ne, FoundAt, hplain.joined]
    exact ⟨hk,hadm,hfi⟩

theorem Stocked.visited_records (h : Stocked c bucket sig K t) (hK : Separate K) (fuel : ℕ)
    (hfuel : Within t fuel) :
    ∀ e ∈ reported (visited c bucket o t fuel []),
      signature e.2 = sig e.1 ∧ e.2.deleted = false ∧ e.2.name = e.1 := by
  intro e he
  obtain ⟨⟨p,fi⟩,hmem,rfl⟩ := List.mem_map.mp he
  obtain ⟨_,rfl,hp0,hp,hroute⟩ := (mem_visited hrec h.named fuel [] (by simp) hfuel p fi).mp hmem
  obtain ⟨hkey,-,hfound⟩ := (h.route_iff hK p hp hp0 fi).mp hroute
  obtain ⟨fi',hfi,hsig,hlive⟩ := h.reads _ hkey
  obtain rfl := Except.ok.inj (hfound.symm.trans hfi)
  exact ⟨hsig,hlive,readVersion_named c bucket _ t none false fi hfound⟩

end Disk

section Sets

variable {c : MetaCodec} {bucket : String} {sig : String → Signature} {K : Finset String}

theorem map_capped (cap : Option ℕ) (xs : Listing) :
    (capped cap [] xs).map Prod.fst = cap.elim (xs.map Prod.fst) (xs.map Prod.fst).take := by
  cases cap with
  | none => rfl
  | some n => simp [capped]

theorem Stocked.walk {t : Disk} (h : Stocked c bucket sig K t) (hK : Separate K)
    (o : WalkOptions) (hrec : o.recursive = true) :
    ∃ s, value (walkDir c bucket o "" t) = .ok s ∧
      s.map Prod.fst = o.maxKeys.elim ((shelf K o).map keyOf) ((shelf K o).map keyOf).take ∧
      ∀ e ∈ s, signature e.2 = sig e.1 ∧ e.2.deleted = false ∧ e.2.name = e.1 := by
  obtain ⟨fuel,hfuel,hwalk⟩ := walkDir_eq (c := c) (o := o) h.volume h.named
  refine ⟨_,hwalk,?_,fun e he => h.visited_records hrec hK fuel hfuel e ?_⟩
  · rw [map_capped, reported, List.map_map, ← h.visited_paths hrec hK fuel hfuel, List.map_map]
    rfl
  · cases hm : o.maxKeys with
    | none => simpa [hm, capped] using he
    | some n =>
      rw [hm, capped] at he
      exact List.mem_of_mem_take he

theorem keys_listOneSet (hK : Separate K) (o : VoteOrder) (pre : String) (after : Option String)
    (cap : Option ℕ) (disks : List Disk) (hne : disks ≠ [])
    (h : ∀ t ∈ disks, Stocked c bucket sig K t) :
    (listOneSet c o bucket pre after cap disks).map ObjectInfo.key =
      cap.elim ((shelf K (walkOptions pre after cap)).map keyOf)
        ((shelf K (walkOptions pre after cap)).map keyOf).take := by
  have hwalk := fun t ht => (h t ht).walk hK (walkOptions pre after cap) rfl
  have hlen : (disks.filterMap (fun t =>
      (value (walkDir c bucket (walkOptions pre after cap) "" t)).toOption)).length =
      disks.length := by
    rw [List.length_filterMap_eq_countP, List.countP_eq_length]
    intro t ht
    obtain ⟨s,hs,-⟩ := hwalk t ht
    simp [hs, Except.toOption]
  have hpos := List.length_pos_iff.mpr hne
  rw [listOneSet, if_neg hne]
  simp only [hlen, if_neg (show ¬disks.length < (disks.length+1)/2 by omega)]
  apply keys_mergeWithinSet o bucket _ _ _ sig
  · rw [← List.length_pos_iff, hlen]
    exact hpos
  · rw [hlen]
    omega
  · intro s hs
    obtain ⟨t,ht,hv⟩ := List.mem_filterMap.mp hs
    obtain ⟨s',hs',hkeys,hrecs⟩ := hwalk t ht
    rw [hs'] at hv
    obtain rfl := Option.some.inj hv
    exact ⟨hkeys,hrecs⟩

end Sets

end Openlake.ListedKeys
