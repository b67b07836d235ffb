import Openlake.Lib.StableSort
import Openlake.LocalFs
import Openlake.XlMetaRoundTrip

/-!
# The version list of a key

A promotion decodes the versions on disk, drops the one it replaces, appends
its own and sorts newest first. The catalog of a key is what such a list holds
after the promotions of `live`, the last one first.
-/

set_option autoImplicit false

namespace Openlake.VersionList
open Openlake.Types XlMeta XlMetaRoundTrip LocalFs Lib.StableSort

def latest (live : List FileInfo) (id : String) : Option FileInfo :=
  live.find? (fun fi => fi.versionId = id)

structure Catalog (live : List FileInfo) (rs : List DecodedRecord) : Prop where
  distinct : (rs.map DecodedRecord.versionId).Nodup
  sorted : rs.Pairwise (fun a b => b.modTimeMs ≤ a.modTimeMs)
  carries : ∀ r ∈ rs, ∃ fi n, latest live r.versionId = some fi ∧ r = recordOf n (stored fi)
  present : ∀ fi ∈ live, ∃ r ∈ rs, r.versionId = fi.versionId

instance : Std.Total (fun a b : DecodedRecord => b.modTimeMs ≤ a.modTimeMs) :=
  ⟨fun a b => UInt64.le_total b.modTimeMs a.modTimeMs⟩

instance : IsTrans DecodedRecord (fun a b => b.modTimeMs ≤ a.modTimeMs) :=
  ⟨fun _ _ _ hab hbc => UInt64.le_trans hbc hab⟩

theorem respell_respell (format : VersionIds.Uuid → String) (field s : String)
    (h : ∀ u, respell format field (format u) = format u) :
    respell format field (respell format field s) = respell format field s := by
  cases hp : parsed (VersionIds.parseUuidBytes s field) with
  | ok u =>
    have hs : respell format field s = format u := by rw [respell, hp]
    rw [hs, h]
  | error e =>
    have hs : respell format field s = s := by rw [respell, hp]
    rw [hs, hs]

theorem stored_again (n m : Int32) (fi : FileInfo) (volume path : String) :
    recordOf n (stored (fileInfoFromRecord (recordOf m (stored fi)) volume path)) =
      recordOf n (stored fi) := by
  have hid := respell_respell _ "version_id" fi.versionId respell_versionId
  have hdir := respell_respell _ "data_dir" fi.dataDir respell_dataDir
  have hinline : inlineBytes (stored (fileInfoFromRecord (recordOf m (stored fi)) volume path)) =
      inlineBytes (stored fi) := by
    show ((if inlineBytes (stored fi) = [] then none else some [inlineBytes (stored fi)] :
      Option (List Bytes)).getD []).flatten = inlineBytes (stored fi)
    split_ifs with h <;> simp [h]
  rw [recordOf, hinline]
  simp only [stored, fileInfoFromRecord, recordOf, hid, hdir]

section Merge

variable (n : Int32) (fi : FileInfo) (volume path : String) (existing : List DecodedRecord)

def kept : List DecodedRecord :=
  (existing.filter (fun r => r.versionId ≠ fi.versionId)).map
    (fun r => recordOf n (stored (fileInfoFromRecord r volume path)))

def merged : List DecodedRecord :=
  newestRecordFirst (kept n fi volume path existing ++ [recordOf n (stored fi)])

theorem newestRecordFirst_mergeVersions :
    newestRecordFirst ((mergeVersions fi volume path existing).map
      (fun g => recordOf n (stored g))) = merged n fi volume path existing := by
  have hmap := List.map_insertionSort (fun a b : FileInfo => b.modTimeMs ≤ a.modTimeMs)
    (fun a b : DecodedRecord => b.modTimeMs ≤ a.modTimeMs) (fun g => recordOf n (stored g))
    ((existing.filter (fun r => r.versionId ≠ fi.versionId)).map
      (fun r => fileInfoFromRecord r volume path) ++ [fi]) (fun _ _ _ _ => Iff.rfl)
  rw [mergeVersions, hmap, newestRecordFirst,
    (List.pairwise_insertionSort _ _).insertionSort_eq, merged, newestRecordFirst, kept,
    List.map_append, List.map_map]
  rfl

variable {existing}

section

variable {live : List FileInfo} (h : Catalog live existing)

include h

theorem mem_kept (r : DecodedRecord) :
    r ∈ kept n fi volume path existing ↔ ∃ s ∈ existing, s.versionId ≠ fi.versionId ∧
      r = { s with numVersions := n } := by
  rw [kept, List.mem_map]
  constructor
  · rintro ⟨s,hs,rfl⟩
    obtain ⟨hmem,hne⟩ := List.mem_filter.mp hs
    obtain ⟨g,m,-,hg⟩ := h.carries s hmem
    refine ⟨s,hmem,by simpa using hne,?_⟩
    rw [hg, stored_again]
    rfl
  · rintro ⟨s,hmem,hne,rfl⟩
    obtain ⟨g,m,-,hg⟩ := h.carries s hmem
    refine ⟨s,List.mem_filter.mpr ⟨hmem,by simpa using hne⟩,?_⟩
    rw [hg, stored_again]
    rfl

theorem mem_merged (r : DecodedRecord) :
    r ∈ merged n fi volume path existing ↔ (∃ s ∈ existing, s.versionId ≠ fi.versionId ∧
      r = { s with numVersions := n }) ∨ r = recordOf n (stored fi) := by
  rw [merged, newestRecordFirst, List.mem_insertionSort, List.mem_append, mem_kept n fi volume path h,
    List.mem_singleton]

theorem kept_ids :
    (kept n fi volume path existing).map DecodedRecord.versionId =
      (existing.filter (fun r => r.versionId ≠ fi.versionId)).map DecodedRecord.versionId := by
  rw [kept, List.map_map]
  apply List.map_congr_left
  intro r hr
  obtain ⟨g,m,-,hg⟩ := h.carries r (List.mem_of_mem_filter hr)
  rw [Function.comp_apply, hg, stored_again]
  rfl

theorem Catalog.merge (hid : (stored fi).versionId = fi.versionId) :
    Catalog (fi::live) (merged n fi volume path existing) := by
  have hmem := mem_merged n fi volume path h
  constructor
  · have hperm := (List.perm_insertionSort (fun a b : DecodedRecord => b.modTimeMs ≤ a.modTimeMs)
      (kept n fi volume path existing ++ [recordOf n (stored fi)])).map DecodedRecord.versionId
    rw [merged, newestRecordFirst, hperm.nodup_iff, List.map_append, kept_ids n fi volume path h,
      List.nodup_append]
    refine ⟨(List.filter_sublist.map _).nodup h.distinct,by simp,?_⟩
    intro a ha b hb
    obtain ⟨r,hr,rfl⟩ := List.mem_map.mp ha
    have hne : r.versionId ≠ fi.versionId := by simpa using (List.mem_filter.mp hr).2
    obtain rfl : b = (recordOf n (stored fi)).versionId := by simpa using hb
    exact fun he => hne (he.trans hid)
  · exact List.pairwise_insertionSort _ _
  · intro r hr
    rcases (hmem r).mp hr with ⟨s,hs,hne,rfl⟩ | rfl
    · obtain ⟨g,m,hlatest,hg⟩ := h.carries s hs
      refine ⟨g,n,?_,by rw [hg]; rfl⟩
      rw [latest, List.find?_cons_of_neg (by simpa using Ne.symm hne)]
      exact hlatest
    · refine ⟨fi,n,?_,rfl⟩
      exact List.find?_cons_of_pos (decide_eq_true hid.symm)
  · intro g hg
    rcases List.mem_cons.mp hg with rfl | hg
    · exact ⟨_,(hmem _).mpr (.inr rfl),hid⟩
    · obtain ⟨r,hr,hrid⟩ := h.present g hg
      by_cases hne : r.versionId = fi.versionId
      · exact ⟨_,(hmem _).mpr (.inr rfl),hid.trans (hne.symm.trans hrid)⟩
      · exact ⟨_,(hmem _).mpr (.inl ⟨r,hr,hne,rfl⟩),hrid⟩

/-- The new version leads the list exactly when it is strictly newer than every
version it does not replace. -/
theorem merged_head_iff (hid : (stored fi).versionId = fi.versionId) :
    (merged n fi volume path existing).head? = some (recordOf n (stored fi)) ↔
      ∀ r ∈ existing, r.versionId ≠ fi.versionId → r.modTimeMs < fi.modTimeMs := by
  have hkept := mem_kept n fi volume path h
  constructor
  · intro hhead r hr hne
    by_contra hlt
    obtain ⟨y,hy,hyhead⟩ := head_sort_of_earlier
      (fun a b : DecodedRecord => b.modTimeMs ≤ a.modTimeMs) (kept n fi volume path existing)
      (recordOf n (stored fi)) ⟨_,(hkept _).mpr ⟨r,hr,hne,rfl⟩,UInt64.not_lt.mp hlt⟩
    rw [merged, newestRecordFirst, hyhead] at hhead
    obtain ⟨s,-,hsne,hs⟩ := (hkept y).mp hy
    apply hsne
    have hyid : y.versionId = s.versionId := by rw [hs]
    rw [← hyid, Option.some.inj hhead]
    exact hid
  · intro hlt
    apply head_sort_of_last
    intro a ha hle
    obtain ⟨s,hs,hne,rfl⟩ := (hkept a).mp ha
    exact UInt64.not_lt.mpr hle (hlt s hs hne)

end

end Merge

end Openlake.VersionList
