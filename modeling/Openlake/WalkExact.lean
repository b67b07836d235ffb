import Openlake.VersionHistory
import Openlake.Walk

/-!
# What a walk misses

A walk does not look below an object, so a key below another key is read but
not listed. On a volume that was filled by promotions this is the only
difference between what a walk reports and what can be read.
-/

set_option autoImplicit false

namespace Openlake.WalkExact
open Openlake.Types XlMeta LocalFs VersionHistory RecordBytes Lib.FileTree Lib.Effects Lib.Outcomes

section Walks

variable {c : MetaCodec} {volume : String} {t : Disk}

theorem rejects_eq (pre : String) (k : String) :
    (WalkOptions.mk true pre none none).rejects k = false ↔ startsWith k pre = true := by
  by_cases h : pre = ""
  · subst h
    have hnil : startsWith k "" = true := (startsWith_iff k "").mpr List.nil_prefix
    simp [WalkOptions.rejects, hnil]
  · simp [WalkOptions.rejects, h]

/-- Without a cursor a walk gets to an object when no directory above it has a
metadata file. -/
theorem route_iff (hdir : look t [volume] = some .dir) (pre : String) (p : Path)
    (hp : ∀ s ∈ p, FileName s) (fi : FileInfo) :
    Route c volume ⟨true,pre,none,none⟩ t [] p fi ↔ FoundAt c volume t p fi ∧
      startsWith (keyOf p) pre = true ∧
      ∀ a, a <+: p → a ≠ [] → a ≠ p → look t (volume::a ++ [metaFilename]) = none := by
  have hnames : ∀ a, a <+: p → ∀ s ∈ a, FileName s := fun a ha s hs => hp s (ha.subset hs)
  have habove : FoundAt c volume t p fi → ∀ a, a <+: p → look t (volume::a) = some .dir :=
    fun h a ha => prefix_shows_dir t _ _ (look_of_found p hp fi h) (by simpa using ha)
  constructor
  · intro h
    refine ⟨h.found,(rejects_eq pre _).mp h.kept,fun a ha ha0 hap => ?_⟩
    exact (noRecord_iff hdir a (hnames a ha) (habove h.found a ha)).mp (h.enters a ha ha0 hap)
  · rintro ⟨hfound,hpre,hno⟩
    refine ⟨fun a ha ha0 => ⟨rfl,?_⟩,fun a ha ha0 hap => ?_,hfound,(rejects_eq pre _).mpr hpre⟩
    · obtain ⟨r,rfl⟩ := ha
      exact not_outside _ a r (hnames a (List.prefix_append _ _)) (fun s hs => hp s (by simp [hs]))
        ha0 hpre
    · exact (noRecord_iff hdir a (hnames a ha) (habove hfound a ha)).mpr (hno a ha ha0 hap)

variable (c volume t) in
def Readable (k : String) : Prop := ∃ fi, value (readVersion c volume k none false t) = .ok fi

def Uncovered (volume : String) (t : Disk) (k : String) : Prop :=
  ∀ a, a <+: segments k → a ≠ [] → a ≠ segments k → look t (volume::a ++ [metaFilename]) = none

theorem mem_keys_iff (hdir : look t [volume] = some .dir) (hwell : WellNamed t) (fuel : ℕ)
    (hfuel : Within t fuel) (pre k : String) :
    k ∈ (reported (visited c volume ⟨true,pre,none,none⟩ t fuel [])).map Prod.fst ↔
      PlainKey k ∧ startsWith k pre = true ∧ Readable c volume t k ∧ Uncovered volume t k := by
  have hmem := @mem_visited c volume ⟨true,pre,none,none⟩ t rfl hwell fuel [] (by simp) hfuel
  simp only [reported, List.map_map, List.mem_map, Function.comp_apply, Prod.exists, hmem,
    List.nil_append]
  constructor
  · rintro ⟨p,fi,⟨_,rfl,hp0,hp,hroute⟩,rfl⟩
    obtain ⟨hfound,hpre,hno⟩ := (route_iff hdir pre p hp fi).mp hroute
    exact ⟨plainKey_keyOf p hp hp0,hpre,⟨fi,hfound⟩,by rwa [Uncovered, segments_keyOf p hp]⟩
  · rintro ⟨hplain,hpre,⟨fi,hfi⟩,hno⟩
    refine ⟨segments k,fi,⟨_,rfl,hplain.segments_ne,hplain.names,?_⟩,hplain.joined⟩
    rw [route_iff hdir pre _ hplain.names, FoundAt, hplain.joined]
    exact ⟨hfi,hpre,hno⟩

theorem keys_nodup (hwell : WellNamed t) (fuel : ℕ) (hfuel : Within t fuel) (pre : String) :
    ((reported (visited c volume ⟨true,pre,none,none⟩ t fuel [])).map Prod.fst).Nodup := by
  rw [reported, List.map_map, List.Nodup, List.pairwise_map]
  apply (visited_sorted rfl fuel []).imp_of_mem
  rintro ⟨p,fi⟩ ⟨q,gi⟩ hp hq hlt he
  obtain ⟨_,rfl,-,hp,-⟩ := (mem_visited rfl hwell fuel [] (by simp) hfuel p fi).mp hp
  obtain ⟨_,rfl,-,hq,-⟩ := (mem_visited rfl hwell fuel [] (by simp) hfuel q gi).mp hq
  have hpq := congrArg segments he
  simp only [Function.comp_apply, segments_keyOf _ hp, segments_keyOf _ hq] at hpq
  simp [hpq] at hlt

end Walks

theorem keeps_createDirs (p : Path) (hp : ∀ s ∈ p, FileName s) :
    Keeps WellNamed (createDirs p) := by
  apply keeps_change
  intro t t' hwell h q hq
  rw [(look_createDirAll t t' p (mapError_eq_ok.mp h) q).1] at hq
  split_ifs at hq with hpre
  · exact fun s hs => hp s (hpre.subset hs)
  · exact hwell q hq

theorem keeps_requireVol (volume : String) (h : FileName volume) :
    Keeps WellNamed (requireVol volume) := by
  rw [requireVol]
  split_ifs
  · exact keeps_createDirs _ (by simpa using h)
  · exact keeps_probe _

theorem keeps_overwrite (bytes : Bytes) (p : Path) (hp : ∀ s ∈ p, FileName s) :
    Keeps WellNamed (overwrite bytes p) := by
  apply keeps_change
  intro t t' hwell h q hq
  rw [look_writeFile bytes t t' p (mapError_eq_ok.mp h) q] at hq
  split_ifs at hq with hqp
  · rwa [hqp]
  · exact hwell q hq

theorem keeps_renameNode (src dst : Path) (x : String) (hdst : ∀ s ∈ dst, FileName s) :
    Keeps WellNamed (renameNode (src ++ [x]) (dst ++ [x])) := by
  apply keeps_change
  intro t t' hwell h q hq
  rw [look_rename t t' _ _ (mapError_eq_ok.mp h) q] at hq
  split_ifs at hq with hpre hsrc
  · have hnames := hwell _ hq
    obtain ⟨r,rfl⟩ := hpre
    rw [List.drop_left] at hnames
    intro s hs
    simp only [List.mem_append] at hs
    rcases hs with (hs | hs) | hs
    · exact hdst s hs
    · exact hnames s (by simp [List.mem_singleton.mp hs])
    · exact hnames s (by simp [hs])
  · exact absurd rfl hq
  · exact hwell q hq

theorem keeps_removeDir (p : Path) :
    Keeps WellNamed (change (fun t => (removeDir t p).mapError osError)) := by
  apply keeps_change
  intro t t' hwell h q hq
  rw [(look_removeDir t t' p (mapError_eq_ok.mp h)).2.2 q] at hq
  split_ifs at hq
  · exact absurd rfl hq
  · exact hwell q hq

theorem keeps_moveDataDir (staged object : Path) (dataDir : String)
    (hobject : ∀ s ∈ object, FileName s) : Keeps WellNamed (moveDataDir staged object dataDir) := by
  constructor
  intro t hwell
  rw [moveDataDir]
  split_ifs
  · have hmove : Keeps WellNamed (do
        createDirs object
        renameNode (staged ++ [dataDir]) (object ++ [dataDir])) :=
      keeps_bind (keeps_createDirs object hobject) fun _ _ _ _ =>
        keeps_renameNode staged object dataDir hobject
    exact hmove.kept t hwell
  · exact hwell

theorem keeps_writeBackup (object : Path) (held : Bool) (raw : Option Bytes)
    (hobject : ∀ s ∈ object ++ [metaBackupFilename], FileName s) :
    Keeps WellNamed (writeBackup object held raw) := by
  have hdir : ∀ s ∈ object, FileName s := fun s hs => hobject s (by simp [hs])
  cases raw with
  | none => exact keeps_pure ()
  | some raw =>
    rw [writeBackup]
    split_ifs
    · exact keeps_bind (keeps_createDirs object hdir) fun _ _ _ _ => keeps_overwrite raw _ hobject
    · exact keeps_pure ()

theorem keeps_renameData (c : MetaCodec) (srcVolume srcPath : String) (fi : FileInfo)
    (dstVolume dstPath : String) (hsrc : ∀ s ∈ filePath srcVolume srcPath, FileName s)
    (hdst : ∀ s ∈ filePath dstVolume dstPath, FileName s) :
    Keeps WellNamed (renameData c srcVolume srcPath fi dstVolume dstPath) := by
  have hfile : ∀ x ∈ [metaFilename,metaBackupFilename], FileName x := by decide
  have hchild : ∀ p : Path, (∀ s ∈ p, FileName s) → ∀ x ∈ [metaFilename,metaBackupFilename],
      ∀ s ∈ p ++ [x], FileName s := fun p hp x hx s hs =>
    (List.mem_append.mp hs).elim (hp s) (fun h => List.mem_singleton.mp h ▸ hfile x hx)
  rw [renameData]
  refine keeps_bind (keeps_lift _) fun _ _ _ _ => ?_
  refine keeps_bind (keeps_requireVol _ (hdst _ (by simp [filePath]))) fun _ _ _ _ => ?_
  refine keeps_bind (keeps_probe _) fun _ _ _ _ => ?_
  refine keeps_bind (keeps_lift _) fun _ _ _ _ => ?_
  refine keeps_bind (keeps_createDirs _ hsrc) fun _ _ _ _ => ?_
  refine keeps_bind (keeps_overwrite _ _ (hchild _ hsrc _ (by simp))) fun _ _ _ _ => ?_
  refine keeps_bind (keeps_moveDataDir _ _ _ hdst) fun _ _ _ _ => ?_
  refine keeps_bind (keeps_writeBackup _ _ _ (hchild _ hdst _ (by simp))) fun _ _ _ _ => ?_
  refine keeps_bind (keeps_createDirs _ hdst) fun _ _ _ _ => ?_
  refine keeps_bind (keeps_renameNode _ _ _ hdst) fun _ _ _ _ => ?_
  exact keeps_bind (keeps_ignore (keeps_removeDir _)) fun _ _ _ _ => keeps_pure _

section Volumes

variable (c : MetaCodec) (volume : String)

/-- The states of a volume that promotions fill, while anything may happen
outside of it. -/
inductive Reached : Disk → Prop
  | start (t : Disk) (hwell : WellNamed t) (hdir : look t [volume] = some .dir)
      (hempty : ∀ x q, look t (volume::x::q) = none) : Reached t
  | outside {t t' : Disk} (h : Reached t) (hsame : SameVolume volume t t')
      (hwell : WellNamed t') : Reached t'
  | promote {t t' : Disk} {old : String} (srcVolume srcPath : String) (fi : FileInfo)
      (key : String) (h : Reached t) (hvol : srcVolume ≠ volume)
      (hsrc : ∀ s ∈ filePath srcVolume srcPath, FileName s) (hkey : PlainKey key)
      (hok : renameData c srcVolume srcPath fi volume key t = .ok old t') : Reached t'

/-- The walk reports the keys with the filter that can be read, each once. -/
def ListsExactly (t : Disk) (pre : String) : Prop :=
  ∃ out, value (walkDir c volume ⟨true,pre,none,none⟩ "" t) = .ok out ∧
    (out.map Prod.fst).Nodup ∧ ∀ k, k ∈ out.map Prod.fst ↔
      PlainKey k ∧ startsWith k pre = true ∧ Readable c volume t k

variable {c volume}

theorem Reached.inv {t : Disk} (h : Reached c volume t) :
    WellNamed t ∧ look t [volume] = some .dir := by
  induction h with
  | start t hwell hdir _ => exact ⟨hwell,hdir⟩
  | outside _ hsame hwell ih => exact ⟨hwell,(hsame _ (.inl List.prefix_rfl)).trans ih.2⟩
  | @promote t t' old srcVolume srcPath fi key _ hvol hsrc hkey hok ih =>
    obtain ⟨hwell,hdir⟩ := ih
    have hdst : ∀ s ∈ filePath volume key, FileName s :=
      List.forall_mem_cons.mpr ⟨hwell [volume] (by simp [hdir]) volume (by simp),hkey.names⟩
    constructor
    · have hleft := (keeps_renameData c srcVolume srcPath fi volume key hsrc hdst).kept t hwell
      rwa [hok] at hleft
    · obtain ⟨raw,existing,encoded,hp⟩ := renameData_promoted c srcVolume srcPath fi volume key hvol
        t t' old hok
      rw [hp.shows [volume] (apart_cons hvol _ _)]
      simp [metaPath, filePath, hkey.segments_ne]

/-- A walk is exact when no key it should report lies below an object. -/
theorem walk_exact_iff {t : Disk} (h : Reached c volume t) (pre : String) :
    ListsExactly c volume t pre ↔
      ∀ k, PlainKey k → startsWith k pre = true → Readable c volume t k → Uncovered volume t k := by
  obtain ⟨hwell,hdir⟩ := h.inv
  obtain ⟨fuel,hfuel,hwalk⟩ := walkDir_eq (c := c) (o := ⟨true,pre,none,none⟩) hdir hwell
  have hkeys := mem_keys_iff (c := c) hdir hwell fuel hfuel pre
  constructor
  · rintro ⟨out,hout,-,hexact⟩ k hplain hpre hread
    rw [hwalk] at hout
    obtain rfl := Except.ok.inj hout
    exact ((hkeys k).mp ((hexact k).mpr ⟨hplain,hpre,hread⟩)).2.2.2
  · intro hcond
    refine ⟨_,hwalk,keys_nodup hwell fuel hfuel pre,fun k => ?_⟩
    constructor
    · intro hk
      obtain ⟨hplain,hpre,hread,-⟩ := (hkeys k).mp hk
      exact ⟨hplain,hpre,hread⟩
    · rintro ⟨hplain,hpre,hread⟩
      exact (hkeys k).mpr ⟨hplain,hpre,hread,hcond k hplain hpre hread⟩

end Volumes

def promoteKey (key : String) (t : Disk) : EStateM.Result IoError Disk String :=
  renameData putCodec stagingVol "s" firstPut "b" key t

def coveredDisk : Disk := left (promoteKey "a/b" (left (promoteKey "a" emptyBucket)))

theorem emptyBucket_wellNamed : WellNamed emptyBucket := by
  intro q hq s hs
  have hb : FileName "b" := by decide
  rcases q with - | ⟨x,- | ⟨y,q⟩⟩
  · cases hs
  · by_cases hx : x = "b"
    · rwa [List.mem_singleton.mp hs, hx]
    · simp [emptyBucket, look_dir_cons, lookup, Ne.symm hx] at hq
  · by_cases hx : "b" = x <;> simp [emptyBucket, look_dir_cons, lookup, hx] at hq

theorem coveredDisk_reached : Reached putCodec "b" coveredDisk := by
  have hsrc : ∀ s ∈ filePath stagingVol "s", FileName s := by decide
  have h0 : Reached putCodec "b" emptyBucket := .start _ emptyBucket_wellNamed rfl (fun _ _ => rfl)
  have ha : value (promoteKey "a" emptyBucket) = .ok "" := by decide +kernel
  have hab : value (promoteKey "a/b" (left (promoteKey "a" emptyBucket))) = .ok "" := by
    decide +kernel
  have h1 := h0.promote stagingVol "s" firstPut "a" (by decide) hsrc (by decide) (eq_ok_left ha)
  exact h1.promote stagingVol "s" firstPut "a/b" (by decide) hsrc (by decide) (eq_ok_left hab)

theorem coveredDisk_exact_iff :
    Reached putCodec "b" coveredDisk ∧ (ListsExactly putCodec "b" coveredDisk "b" ↔
      ∀ k, PlainKey k → startsWith k "b" = true → Readable putCodec "b" coveredDisk k →
        Uncovered "b" coveredDisk k) :=
  ⟨coveredDisk_reached,walk_exact_iff coveredDisk_reached "b"⟩

/-- After a promotion of `a` and of `a/b` the second key is read but not listed. -/
theorem covered_not_listed :
    Reached putCodec "b" coveredDisk ∧ ¬ListsExactly putCodec "b" coveredDisk "" := by
  refine ⟨coveredDisk_reached,?_⟩
  rintro ⟨out,hout,-,hexact⟩
  have hkeys : (value (walkDir putCodec "b" ⟨true,"",none,none⟩ "" coveredDisk)).toOption.map
      (List.map Prod.fst) = some ["a"] := by decide +kernel
  have hread : (value (readVersion putCodec "b" "a/b" none false coveredDisk)).toOption.isSome := by
    decide +kernel
  rw [hout] at hkeys
  have hkeys := Option.some.inj hkeys
  have hmem := (hexact "a/b").mpr ⟨by decide,by decide,?_⟩
  · rw [hkeys] at hmem
    exact absurd hmem (by decide)
  · cases hv : value (readVersion putCodec "b" "a/b" none false coveredDisk) with
    | ok fi => exact ⟨fi,hv⟩
    | error e => simp [hv, Except.toOption] at hread

end Openlake.WalkExact
