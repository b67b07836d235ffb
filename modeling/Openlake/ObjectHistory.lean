import Openlake.DeleteObject
import Openlake.OversizedRecord
import Openlake.VersionHistory

/-!
# The history of one object

Promotions, removals of replaced data dirs and deletions of the object, in any
order. The metadata stays the catalog of what was promoted since the last
deletion, and the data dirs it names stay in the object directory: a replaced
data dir is never named again, because every promotion brings a fresh one.
-/

set_option autoImplicit false

namespace Openlake.ObjectHistory
open Openlake.Types XlMeta XlMetaRoundTrip LocalFs VersionList VersionHistory RecordBytes
open OversizedRecord Lib.FileTree Lib.Effects

/-- A disk with what was promoted since the last deletion, the last one first,
all data dirs used so far and those returned for removal. -/
structure History where
  disk : Disk
  live : List FileInfo := []
  dirs : List String := []
  stale : List String := []

section Key

variable (c : MetaCodec) (volume path : String)

/-- The data dir of an upload is new and waits in its staging directory. -/
def FreshDir (s : History) (srcVolume srcPath : String) (fi : FileInfo) : Prop :=
  fi.dataDir = "" ∨
    (fi.dataDir ∉ s.dirs ∧ isDir s.disk (filePath srcVolume srcPath ++ [fi.dataDir]))

inductive Reached (admits : Disk → FileInfo → Prop) : History → Prop
  | start (t : Disk) (h : Lib.FileTree.readFile t (metaPath volume path) = .error .notFound) :
    Reached admits ⟨t,[],[],[]⟩
  | outside {s : History} {t' : Disk} (h : Reached admits s)
      (hsame : SameVolume volume s.disk t') : Reached admits { s with disk := t' }
  | promote {s : History} {t' : Disk} {old : String} (srcVolume srcPath : String) (fi : FileInfo)
      (h : Reached admits s) (hvol : srcVolume ≠ volume) (hcanon : Canonical fi)
      (hdir : FreshDir s srcVolume srcPath fi) (hadm : admits s.disk fi)
      (hok : renameData c srcVolume srcPath fi volume path s.disk = .ok old t') :
    Reached admits ⟨t',fi::s.live,fi.dataDir::s.dirs,old::s.stale⟩
  | dropStale {s : History} (old : String) (h : Reached admits s) (hold : old ∈ s.stale)
      (hne : old ≠ "") :
    Reached admits { s with disk := left (delete volume (path ++ "/" ++ old) true s.disk) }
  | deleted {s : History} {t' : Disk} (h : Reached admits s)
      (hok : deleteObjectScoped c volume path s.disk = .ok () t') :
    Reached admits { s with disk := t', live := [] }
  | notDeleted {s : History} {t' : Disk} {e : IoError} (h : Reached admits s)
      (herr : deleteObjectScoped c volume path s.disk = .error e t') :
    Reached admits { s with disk := t' }

/-- A version on disk carries the persisted fields and the inline bytes of what
was promoted. -/
structure Carries (r : DecodedRecord) (fi : FileInfo) : Prop where
  size : r.size = fi.size
  modTimeMs : r.modTimeMs = fi.modTimeMs
  deleted : r.deleted = fi.deleted
  metadata : r.metadata = fi.metadata
  metaSys : r.metaSys = fi.metaSys
  erasure : r.erasure = fi.erasure
  parts : r.parts = fi.parts
  dataDir : r.dataDir = fi.dataDir
  inline : (r.inline.getD []).flatten = inlineBytes fi

/-- The metadata on disk says what was promoted and names data dirs that are
there. -/
structure Consistent (s : History) : Prop where
  decodes : ∀ raw, Lib.FileTree.readFile s.disk (metaPath volume path) = .ok raw →
    ∃ rs, decodeAll c raw = .ok rs ∧ (rs.map DecodedRecord.versionId).Nodup ∧
      rs.Pairwise (fun a b => b.modTimeMs ≤ a.modTimeMs) ∧
      (∀ r ∈ rs, ∃ fi, latest s.live r.versionId = some fi ∧ Carries r fi) ∧
      ∀ r ∈ rs, r.dataDir ≠ "" → isDir s.disk (filePath volume path ++ [r.dataDir])
  present : ∀ fi ∈ s.live, ∃ raw rs,
    Lib.FileTree.readFile s.disk (metaPath volume path) = .ok raw ∧
      decodeAll c raw = .ok rs ∧ ∃ r ∈ rs, r.versionId = fi.versionId

structure Inv (s : History) : Prop where
  recorded : Recorded c volume path s.disk s.live
  canonical : ∀ fi ∈ s.live, Canonical fi
  used : ∀ fi ∈ s.live, fi.dataDir ∈ s.dirs
  distinct : s.live.Pairwise (fun f g => f.dataDir ≠ "" → f.dataDir ≠ g.dataDir)
  there : ∀ id fi, latest s.live id = some fi → fi.dataDir ≠ "" →
    isDir s.disk (filePath volume path ++ [fi.dataDir]) ∧ fi.dataDir ∉ s.stale
  stale : ∀ d ∈ s.stale, d ≠ "" → d ∈ s.dirs ∧ ∃ u, d = VersionIds.formatUuidHex u

variable {c volume path}

variable {fi : FileInfo} {live : List FileInfo}

theorem latest_some {id : String}
    (h : latest live id = some fi) : fi ∈ live ∧ fi.versionId = id :=
  ⟨List.mem_of_find?_eq_some h,by simpa using List.find?_some h⟩

variable {s : History}

theorem Inv.keep (h : Inv c volume path s) (t' : Disk)
    (hread : Lib.FileTree.readFile t' (metaPath volume path) =
      Lib.FileTree.readFile s.disk (metaPath volume path))
    (hdirs : ∀ fi ∈ s.live, fi.dataDir ≠ "" → fi.dataDir ∉ s.stale →
      look t' (filePath volume path ++ [fi.dataDir]) =
        look s.disk (filePath volume path ++ [fi.dataDir])) :
    Inv c volume path { s with disk := t' } := by
  refine { h with recorded := h.recorded.congr hread, there := fun id fi hl hne => ?_ }
  obtain ⟨hdir,hstale⟩ := h.there id fi hl hne
  refine ⟨?_,hstale⟩
  rw [isDir_iff] at hdir ⊢
  rw [hdirs fi (latest_some hl).1 hne hstale, hdir]

theorem formatted_of_canonical (h : Canonical fi) (hne : fi.dataDir ≠ "") :
    ∃ u, fi.dataDir = VersionIds.formatUuidHex u := by
  obtain ⟨u,hu⟩ := h.dataDir
  rw [VersionIds.formatDataDirBytes] at hu
  split_ifs at hu
  · exact absurd hu hne
  · exact ⟨u,hu⟩

theorem oldDataDir_getD (fi : FileInfo) (existing : List DecodedRecord)
    (hne : (oldDataDir fi existing).getD "" ≠ "") :
    ∃ r ∈ existing, r.versionId = fi.versionId ∧
      r.dataDir = (oldDataDir fi existing).getD "" := by
  cases ho : oldDataDir fi existing with
  | none => simp [ho] at hne
  | some d =>
    rw [oldDataDir, Option.filter_eq_some_iff, Option.map_eq_some_iff] at ho
    obtain ⟨⟨r,hr,hd⟩,-⟩ := ho
    exact ⟨r,List.mem_of_find?_eq_some hr,by simpa using List.find?_some hr,hd⟩

theorem Inv.replaced (h : Inv c volume path s) (fi : FileInfo)
    (existing : List DecodedRecord) (hcat : Catalog s.live existing)
    (hne : (oldDataDir fi existing).getD "" ≠ "") :
    ∃ g, latest s.live fi.versionId = some g ∧ g.dataDir = (oldDataDir fi existing).getD "" := by
  obtain ⟨r,hr,hid,hdir⟩ := oldDataDir_getD fi existing hne
  obtain ⟨g,n,hl,hg⟩ := hcat.carries r hr
  rw [hid] at hl
  refine ⟨g,hl,?_⟩
  rw [← hdir, hg, (h.canonical g (latest_some hl).1).stored_eq]
  rfl

theorem distinct_dirs (h : live.Pairwise (fun f g => f.dataDir ≠ "" → f.dataDir ≠ g.dataDir))
    {f g : FileInfo}
    (hf : f ∈ live) (hg : g ∈ live) (hne : f.dataDir ≠ "") (he : f.dataDir = g.dataDir) :
    f.versionId = g.versionId := by
  by_contra hid
  have hfg : f ≠ g := fun heq => hid (heq ▸ rfl)
  have : Std.Symm (fun f g : FileInfo => f.dataDir ≠ "" → f.dataDir ≠ g.dataDir) :=
    ⟨fun a b hab hb hba => hab (hba ▸ hb) hba.symm⟩
  exact h.forall hf hg hfg hne he

theorem promoted_dir {t t' : Disk} {srcVolume srcPath old : String}
    {raw : Option Bytes} {existing : List DecodedRecord} {encoded : Bytes}
    (hp : Promoted c srcVolume srcPath fi volume path t t' old raw existing encoded)
    (hvol : srcVolume ≠ volume) (d : String) (hmeta : d ≠ metaFilename)
    (hbkp : d ≠ metaBackupFilename) :
    look t' (filePath volume path ++ [d]) =
      if fi.dataDir = d ∧ fi.dataDir ≠ "" ∧ isDir t (filePath srcVolume srcPath ++ [fi.dataDir])
      then some .dir else look t (filePath volume path ++ [d]) := by
  have hapart : Apart (filePath srcVolume srcPath) (filePath volume path ++ [d]) :=
    apart_cons hvol _ _
  have hup : ¬filePath volume path ++ [d] <+: filePath volume path := fun hup => by
    simpa using hup.length_le
  have hpre : filePath volume path ++ [fi.dataDir] <+: filePath volume path ++ [d] ↔
      fi.dataDir = d := by
    rw [List.prefix_append_right_inj]
    simp
  rw [hp.shows _ hapart, if_neg (by simpa [metaPath] using hmeta), if_neg (by simp [hbkp]),
    if_neg hup]
  by_cases hd : fi.dataDir = d ∧ fi.dataDir ≠ "" ∧
      isDir t (filePath srcVolume srcPath ++ [fi.dataDir])
  · rw [if_pos hd, if_pos ⟨hpre.mpr hd.1,hd.2⟩]
    simpa [isDir_iff] using hd.2.2
  · rw [if_neg hd, if_neg (fun hx => hd ⟨hpre.mp hx.1,hx.2⟩)]

section Steps

variable {s : History}

section

variable (h : Inv c volume path s)

include h

variable {t' : Disk}

theorem Inv.promoted {srcVolume srcPath old : String}
    {fi : FileInfo} (hvol : srcVolume ≠ volume) (hcanon : Canonical fi)
    (hdir : FreshDir s srcVolume srcPath fi) (hfits : Fits c volume path s.disk fi)
    (hok : renameData c srcVolume srcPath fi volume path s.disk = .ok old t') :
    Inv c volume path ⟨t',fi::s.live,fi.dataDir::s.dirs,old::s.stale⟩ := by
  obtain ⟨raw,existing,encoded,n,hp,hcat,hread,hdec⟩ := h.recorded.promote hvol hfits hok
  have hid : (stored fi).versionId = fi.versionId := by rw [hcanon.stored_eq]
  obtain rfl := hp.old_eq
  have hunused : ∀ g ∈ s.live, fi.dataDir ≠ "" → fi.dataDir ≠ g.dataDir := by
    intro g hg hne he
    rcases hdir with h0 | ⟨hfresh,-⟩
    · exact hne h0
    · exact hfresh (he ▸ h.used g hg)
  have hshow : ∀ g : FileInfo, Canonical g →
      look t' (filePath volume path ++ [g.dataDir]) = if fi.dataDir = g.dataDir ∧
        fi.dataDir ≠ "" ∧ isDir s.disk (filePath srcVolume srcPath ++ [fi.dataDir])
      then some .dir else look s.disk (filePath volume path ++ [g.dataDir]) := by
    intro g hg
    obtain ⟨u,hu⟩ := hg.dataDir
    rw [hu]
    exact promoted_dir hp hvol _ (formatDataDirBytes_ne u).1 (formatDataDirBytes_ne u).2
  refine ⟨.cons hcat hid hread hdec,?_,?_,?_,?_,?_⟩
  · intro g hg
    rcases List.mem_cons.mp hg with rfl | hg
    · exact hcanon
    · exact h.canonical g hg
  · intro g hg
    rcases List.mem_cons.mp hg with rfl | hg
    · exact List.mem_cons_self
    · exact List.mem_cons_of_mem _ (h.used g hg)
  · exact .cons hunused h.distinct
  · intro id g hl hne
    by_cases he : fi.versionId = id
    · rw [latest, List.find?_cons_of_pos (by simpa using he)] at hl
      obtain rfl := Option.some.inj hl
      rcases hdir with h0 | ⟨hfresh,hstaged⟩
      · exact absurd h0 hne
      · refine ⟨?_,?_⟩
        · rw [isDir_iff, hshow fi hcanon, if_pos ⟨rfl,hne,hstaged⟩]
        · intro hmem
          rcases List.mem_cons.mp hmem with hold | hmem
          · obtain ⟨g,hg,hgd⟩ := h.replaced fi existing hcat (hold ▸ hne)
            exact hunused g (latest_some hg).1 hne (hold.trans hgd.symm)
          · exact hfresh (h.stale _ hmem hne).1
    · rw [latest, List.find?_cons_of_neg (by simpa using he)] at hl
      obtain ⟨hmem,hgid⟩ := latest_some hl
      obtain ⟨hthere,hstale⟩ := h.there id g hl hne
      refine ⟨?_,?_⟩
      · rw [isDir_iff] at hthere ⊢
        rw [hshow g (h.canonical g hmem), if_neg fun hx => hunused g hmem hx.2.1 hx.1, hthere]
      · intro hin
        rcases List.mem_cons.mp hin with hold | hin
        · obtain ⟨f,hf,hfd⟩ := h.replaced fi existing hcat (hold ▸ hne)
          obtain ⟨hfmem,hfid⟩ := latest_some hf
          have := distinct_dirs h.distinct hmem hfmem hne (hold.trans hfd.symm)
          exact he (hfid ▸ this ▸ hgid)
        · exact hstale hin
  · intro d hd hne
    rcases List.mem_cons.mp hd with rfl | hd
    · obtain ⟨g,hg,hgd⟩ := h.replaced fi existing hcat hne
      have hmem := (latest_some hg).1
      rw [← hgd] at hne ⊢
      exact ⟨List.mem_cons_of_mem _ (h.used g hmem),formatted_of_canonical (h.canonical g hmem) hne⟩
    · obtain ⟨hin,hu⟩ := h.stale d hd hne
      exact ⟨List.mem_cons_of_mem _ hin,hu⟩

theorem Inv.outside (hsame : SameVolume volume s.disk t') :
    Inv c volume path { s with disk := t' } := by
  apply h.keep t' (hsame.readFile path)
  intro fi _ _ _
  exact hsame _ (.inr (by simp [filePath]))

theorem Inv.droppedStale {old : String} (hold : old ∈ s.stale)
    (hne : old ≠ "") :
    Inv c volume path { s with disk := left (delete volume (path ++ "/" ++ old) true s.disk) } := by
  obtain ⟨-,u,rfl⟩ := h.stale old hold hne
  have hpath := filePath_child volume path _ (fileName_formatUuidHex u)
  apply h.keep
  · apply delete_readFile
    · rw [hpath, metaPath, List.prefix_append_right_inj]
      intro hp
      exact VersionIds.formatUuidHex_ne u metaFilename (by decide) (by simpa using hp)
    · exact metaPath_not_volume volume path
  · intro fi _ _ hstale
    apply delete_frame
    · rw [hpath, List.prefix_append_right_inj]
      intro hp
      have : VersionIds.formatUuidHex u = fi.dataDir := by simpa using hp
      exact hstale (this ▸ hold)
    · intro hp
      simpa [filePath] using hp.length_le

theorem Inv.erased (hok : deleteObjectScoped c volume path s.disk = .ok () t') :
    Inv c volume path { s with disk := t', live := [] } := by
  have hread : Lib.FileTree.readFile t' (metaPath volume path) = .error .notFound := by
    by_cases hraw : ∃ raw, Lib.FileTree.readFile s.disk (metaPath volume path) = .ok raw
    · obtain ⟨raw,hraw⟩ := hraw
      obtain ⟨t,ht,hdel⟩ := deleteObjectScoped_ok c volume path s.disk raw hraw
      rw [hok] at ht
      cases ht
      exact hdel.readFile
    · obtain ⟨e,t,ht,-⟩ := deleteObjectScoped_error c volume path s.disk
        fun raw hr => hraw ⟨raw,hr⟩
      rw [hok] at ht
      cases ht
  exact ⟨.inl ⟨rfl,hread⟩,by simp,by simp,.nil,fun id fi hl => absurd hl (by simp [latest]),h.stale⟩

theorem Inv.notErased {e : IoError}
    (herr : deleteObjectScoped c volume path s.disk = .error e t') :
    Inv c volume path { s with disk := t' } := by
  have hleft : t' = s.disk ∨ Grown [volume] s.disk t' := by
    by_cases hraw : ∃ raw, Lib.FileTree.readFile s.disk (metaPath volume path) = .ok raw
    · obtain ⟨raw,hraw⟩ := hraw
      obtain ⟨t,ht,-⟩ := deleteObjectScoped_ok c volume path s.disk raw hraw
      rw [herr] at ht
      cases ht
    · obtain ⟨e',t,ht,hgrown⟩ := deleteObjectScoped_error c volume path s.disk
        fun raw hr => hraw ⟨raw,hr⟩
      rw [herr] at ht
      cases ht
      exact hgrown
  rcases hleft with rfl | hgrown
  · exact h
  · apply h.keep t' (hgrown.readFile (metaPath_not_volume volume path))
    intro fi _ _ _
    refine (hgrown _).1.trans (if_neg fun hp => ?_)
    simpa [filePath] using hp.length_le

end

end Steps

theorem Reached.inv (h : Reached c volume path (Fits c volume path) s) :
    Inv c volume path s := by
  induction h with
  | start t h =>
    exact ⟨.inl ⟨rfl,h⟩,by simp,by simp,.nil,fun id fi hl => absurd hl (by simp [latest]),by simp⟩
  | outside _ hsame ih => exact ih.outside hsame
  | promote srcVolume srcPath fi _ hvol hcanon hdir hadm hok ih =>
    exact ih.promoted hvol hcanon hdir hadm hok
  | dropStale old _ hold hne ih => exact ih.droppedStale hold hne
  | deleted _ hok ih => exact ih.erased hok
  | notDeleted _ herr ih => exact ih.notErased herr

theorem carries_recordOf (n : Int32) (fi : FileInfo) : Carries (recordOf n fi) fi := by
  refine ⟨rfl,rfl,rfl,rfl,rfl,rfl,rfl,rfl,?_⟩
  show ((if inlineBytes fi = [] then none else some [inlineBytes fi] :
    Option (List Bytes)).getD []).flatten = inlineBytes fi
  split_ifs with h <;> simp [h]

/-- In every history whose writes fit the length fields, the metadata says what
was promoted since the last deletion and its data dirs are there. -/
theorem history_consistent {s : History} (h : Reached c volume path (Fits c volume path) s) :
    Consistent c volume path s := by
  have hinv := h.inv
  rcases hinv.recorded with ⟨hlive,hread⟩ | ⟨-,raw,rs,hread,hdec,hcat⟩
  · refine ⟨fun raw hr => ?_,by simp [hlive]⟩
    rw [hread] at hr
    cases hr
  · have hcarries : ∀ r ∈ rs, ∃ fi, latest s.live r.versionId = some fi ∧ Carries r fi := by
      intro r hr
      obtain ⟨fi,n,hl,hrec⟩ := hcat.carries r hr
      rw [(hinv.canonical fi (latest_some hl).1).stored_eq] at hrec
      exact ⟨fi,hl,hrec ▸ carries_recordOf n fi⟩
    refine ⟨fun raw' hr => ?_,fun fi hfi => ⟨raw,rs,hread,hdec,hcat.present fi hfi⟩⟩
    rw [hread] at hr
    cases hr
    refine ⟨rs,hdec,hcat.distinct,hcat.sorted,hcarries,fun r hr hne => ?_⟩
    obtain ⟨fi,hl,hfi⟩ := hcarries r hr
    rw [hfi.dataDir] at hne ⊢
    exact (hinv.there _ fi hl hne).1

end Key

theorem firstPut_canonical : Canonical firstPut :=
  ⟨canonical_of_eq _ (by decide +kernel),VersionIds.nil,by decide⟩

theorem reached_first : Reached putCodec "b" "k" (Fits putCodec "b" "k")
    ⟨afterFirst,[firstPut],[""],[""]⟩ := by
  have h0 : Reached putCodec "b" "k" (Fits putCodec "b" "k") ⟨emptyBucket,[],[],[]⟩ := .start _ rfl
  have hok : value (promoteK putCodec firstPut emptyBucket) = .ok "" := by decide +kernel
  have hfits : Fits putCodec "b" "k" emptyBucket firstPut :=
    fits_of_eq putCodec "b" "k" _ _ [] (by decide +kernel) (by decide +kernel) (by decide +kernel)
  exact h0.promote stagingVol "s" firstPut (by decide) firstPut_canonical (.inl rfl) hfits
    (eq_ok_left hok)

theorem firstPut_consistent :
    Consistent putCodec "b" "k" ⟨afterFirst,[firstPut],[""],[""]⟩ :=
  history_consistent reached_first

/-- A version with a content type of 4294967295 bytes is promoted, and the
metadata it leaves does not decode. -/
theorem oversized_not_consistent :
    ∃ s, Reached (describedCodec (2^32-1)) "b" "k" (fun _ _ => True) s ∧
      ¬Consistent (describedCodec (2^32-1)) "b" "k" s := by
  obtain ⟨n,hn⟩ : ∃ n, n+1 = 2^32 := ⟨2^32-1,by norm_num⟩
  rw [show 2^32-1 = n by omega]
  have hok := promote_into_empty (describedCodec n) (describedPut (typeOf n)) (metaOf n) rfl
    (encodes_described n)
  have h0 : Reached (describedCodec n) "b" "k" (fun _ _ => True) ⟨emptyBucket,[],[],[]⟩ :=
    .start _ rfl
  have hcanon : Canonical (describedPut (typeOf n)) := ⟨⟨VersionIds.nil,rfl⟩,VersionIds.nil,rfl⟩
  refine ⟨_,h0.promote stagingVol "s" _ (by decide) hcanon (.inl rfl) trivial hok,fun h => ?_⟩
  obtain ⟨rs,hrs,-⟩ := h.decodes (metaOf n) rfl
  rw [metaOf_unreadable n hn] at hrs
  cases hrs

end Openlake.ObjectHistory
