import Openlake.FileCalls

/-!
# When a promotion succeeds

A promotion goes through when the metadata of the object can be read and written
with the new version, no file is on the way to the staging directory or to the
object, and there is room for the data directory. What is below the data directory
does not matter.
-/

set_option autoImplicit false

namespace Openlake.RenameProgress
open Openlake.Types XlMeta LocalFs Lib.FileTree Lib.Effects Lib.Outcomes

section Steps

variable {t : Disk}

theorem look_longer {p : Path} {s : Disk} (h : Grown p t s) (x : String) (r : Path) :
    look s (p ++ x::r) = look t (p ++ x::r) := by
  rw [(h _).1, if_neg]
  intro hp
  have := hp.length_le
  simp at this

theorem moveDataDir_progress (staged object : Path) (dataDir : String) (hapart : Apart staged object)
    (hpass : Passable t object) (hvacant : dataDir ≠ "" → look t (staged ++ [dataDir]) = some .dir →
      Vacant t (object ++ [dataDir])) : ∃ s, moveDataDir staged object dataDir t = .ok () s := by
  rw [moveDataDir]
  split_ifs with hmoved
  · have hsrc : look t (staged ++ [dataDir]) = some .dir := (isDir_iff _ _).mp hmoved.2
    obtain ⟨s,hs,hgrown⟩ := createDirs_progress object t hpass
    have hsrc' : look s (staged ++ [dataDir]) = some .dir := by
      rw [(hgrown _).1, if_neg (hapart.append_left [dataDir]).1, hsrc]
    have hfar : ¬staged ++ [dataDir] <+: object ++ [dataDir] :=
      (hapart.append [dataDir] [dataDir]).1
    have hroom : Vacant s (object ++ [dataDir]) := by
      have hv := hvacant hmoved.1 hsrc
      simp only [Vacant, List.append_assoc, List.singleton_append,
        look_longer hgrown] at hv ⊢
      exact hv
    obtain ⟨s',hs'⟩ := rename_dir_progress s _ object dataDir
      (by rw [(hgrown object).1, if_pos List.prefix_rfl]) hsrc' hfar hroom
    refine ⟨s',?_⟩
    rw [bind_of_ok hs, renameNode, change_eq_ok, hs']
    rfl
  · exact ⟨t,rfl⟩

theorem writeBackup_progress (object : Path) (held : Bool) (raw : Option Bytes)
    (hpass : Passable t object)
    (hbackup : held = true → look t (object ++ [metaBackupFilename]) ≠ some .dir) :
    ∃ s, writeBackup object held raw t = .ok () s := by
  cases raw with
  | none => exact ⟨t,rfl⟩
  | some bytes =>
    rw [writeBackup]
    split_ifs with hheld
    · obtain ⟨s,hs,hgrown⟩ := createDirs_progress object t hpass
      obtain ⟨s',hs',-⟩ := overwrite_progress metaBackupFilename bytes
        (show look s object = some .dir by rw [(hgrown object).1, if_pos List.prefix_rfl])
        (by rw [look_longer hgrown]; exact hbackup hheld)
      exact ⟨s',by rw [bind_of_ok hs, hs']⟩
    · exact ⟨t,rfl⟩

end Steps

section Rename

variable (c : MetaCodec) (srcVolume srcPath : String) (fi : FileInfo) (dstVolume dstPath : String)

structure Renamable (t : Disk) (raw : Option Bytes) (existing : List DecodedRecord)
    (encoded : Bytes) : Prop where
  source : isSystemVol srcVolume = true
  volume : ∃ u s, requireVol dstVolume t = .ok u s
  prior : priorVersions c dstVolume dstPath t = .ok (raw,existing)
  encodes : encodeVersions c (mergeVersions fi dstVolume dstPath existing) = .ok encoded
  staged : Passable t (filePath srcVolume srcPath)
  stagedMeta : look t (filePath srcVolume srcPath ++ [metaFilename]) ≠ some .dir
  object : Passable t (filePath dstVolume dstPath)
  dataDir : fi.dataDir ≠ "" → look t (filePath srcVolume srcPath ++ [fi.dataDir]) = some .dir →
    Vacant t (filePath dstVolume dstPath ++ [fi.dataDir])
  backup : existing.any (fun r => r.versionId = fi.versionId) →
    look t (filePath dstVolume dstPath ++ [metaBackupFilename]) ≠ some .dir

variable {c srcVolume srcPath fi dstVolume dstPath} {t : Disk}

variable {existing : List DecodedRecord} {raw : Option Bytes} {encoded : Bytes}

theorem Renamable.objectMeta
    (h : Renamable c srcVolume srcPath fi dstVolume dstPath t raw existing encoded) :
    look t (metaPath dstVolume dstPath) ≠ some .dir := by
  rcases priorVersions_ok c dstVolume dstPath t raw existing h.prior with ⟨-,-,hr⟩ | ⟨bytes,-,-,hr⟩
  · rw [look_of_notFound t _ hr]
    simp
  · rw [(readFile_eq_ok t _ bytes).mp hr]
    simp

theorem Renamable.stages (hvol : srcVolume ≠ dstVolume) (s : Disk)
    (h : Renamable c srcVolume srcPath fi dstVolume dstPath t raw existing encoded)
    (hs : Grown [dstVolume] t s) :
    ∃ s₂ s₃, createDirs (filePath srcVolume srcPath) s = .ok () s₂ ∧
      overwrite encoded (filePath srcVolume srcPath ++ [metaFilename]) s₂ = .ok () s₃ ∧
      Staged srcVolume srcPath dstVolume t s₃ encoded ∧ Passable s₃ (filePath dstVolume dstPath) := by
  have hapart : Apart (filePath srcVolume srcPath) (filePath dstVolume dstPath) :=
    apart_cons hvol _ _
  have hout : ¬filePath srcVolume srcPath ++ [metaFilename] <+: [dstVolume] := fun hp =>
    hvol (List.cons_prefix_cons.mp hp).1
  obtain ⟨s₂,h₂,hgrown⟩ := createDirs_progress _ s (hs.passable h.staged)
  obtain ⟨s₃,h₃,hwritten⟩ := overwrite_progress metaFilename encoded
    (show look s₂ (filePath srcVolume srcPath) = some .dir by
      rw [(hgrown _).1, if_pos List.prefix_rfl])
    (by rw [look_longer hgrown, (hs _).1, if_neg hout]; exact h.stagedMeta)
  refine ⟨s₂,s₃,h₂,h₃,staged_ok srcVolume srcPath dstVolume hvol t s s₂ s₃ encoded hs hgrown hwritten,
    ?_⟩
  intro q hq
  have hne : q ≠ filePath srcVolume srcPath ++ [metaFilename] := by
    rintro rfl
    exact (hapart.append_left [metaFilename]).1 hq
  rw [hwritten, if_neg hne]
  exact (hgrown.passable (hs.passable h.object)) q hq

theorem not_prefix_self (p : Path) (x : String) : ¬p ++ [x] <+: p := by
  intro hp
  have := hp.length_le
  simp at this

/-- The data directory can be moved and the backup written, and the staged
metadata stays. -/
theorem Renamable.moves (hvol : srcVolume ≠ dstVolume) (s : Disk)
    (h : Renamable c srcVolume srcPath fi dstVolume dstPath t raw existing encoded)
    (hstaged : Staged srcVolume srcPath dstVolume t s encoded)
    (hpass : Passable s (filePath dstVolume dstPath)) :
    ∃ s₄ s₅, moveDataDir (filePath srcVolume srcPath) (filePath dstVolume dstPath) fi.dataDir s =
        .ok () s₄ ∧
      writeBackup (filePath dstVolume dstPath) (existing.any (fun r => r.versionId = fi.versionId))
        raw s₄ = .ok () s₅ ∧ Passable s₅ (filePath dstVolume dstPath) ∧
      look s₅ (filePath srcVolume srcPath ++ [metaFilename]) = some (.file encoded) ∧
      look s₅ (filePath dstVolume dstPath ++ [metaFilename]) ≠ some .dir := by
  have hnames := dataDir_ne_file_names c _ encoded h.encodes fi
    ((List.mem_insertionSort _).mpr (by simp))
  have hmeta := h.objectMeta
  rw [metaPath] at hmeta
  set S := filePath srcVolume srcPath with hS
  set O := filePath dstVolume dstPath with hO
  have hapart : Apart S O := apart_cons hvol _ _
  have hbelow : ∀ x r, look s (O ++ x::r) = look t (O ++ x::r) := by
    intro x r
    have hlong : ¬O ++ x::r <+: [dstVolume] := by
      intro hp
      have := hp.length_le
      simp [hO, filePath] at this
    rw [hstaged.outside _ (hapart.symm.append_left _).symm, if_neg hlong]
  obtain ⟨s₄,h₄⟩ := moveDataDir_progress S O fi.dataDir hapart hpass (by
    intro hne hdir
    rw [hstaged.below _ [] hnames.1] at hdir
    have hvacant := h.dataDir hne hdir
    simp only [Vacant, List.append_assoc, List.singleton_append, hbelow] at hvacant ⊢
    exact hvacant)
  have hmoved := moveDataDir_ok S O fi.dataDir hapart s s₄ _ h₄
  have hpass₄ : Passable s₄ O := by
    intro q hq
    have hfar : ¬S ++ [fi.dataDir] <+: q := fun hp => (hapart.append_left _).1 (hp.trans hq)
    have hnew : ¬O ++ [fi.dataDir] <+: q := fun hp => not_prefix_self O _ (hp.trans hq)
    rw [(hmoved q hfar).1, if_neg (fun h => hnew h.1)]
    split_ifs
    · exact .inr rfl
    · exact hpass q hq
  have hfile₄ : ∀ x, x ≠ fi.dataDir → look s₄ (O ++ [x]) = look t (O ++ [x]) := by
    intro x hx
    have hfar : ¬S ++ [fi.dataDir] <+: O ++ [x] := (hapart.append _ _).1
    have hnew : ¬O ++ [fi.dataDir] <+: O ++ [x] := by simpa using hx.symm
    rw [(hmoved _ hfar).1, if_neg (fun h => hnew h.1), if_neg (fun h => not_prefix_self O x h.1),
      hbelow]
  obtain ⟨s₅,h₅⟩ := writeBackup_progress O (existing.any (fun r => r.versionId = fi.versionId)) raw
    hpass₄ (by
      intro hheld
      rw [hfile₄ _ hnames.2.symm]
      exact h.backup hheld)
  have hbacked := writeBackup_ok O _ raw s₄ s₅ _ h₅
  have hkept : ∀ q, ¬q <+: O → q ≠ O ++ [metaBackupFilename] → look s₅ q = look s₄ q := by
    intro q hq hne
    rw [(hbacked q).1, if_neg (fun h => hne h.1), if_neg (fun h => hq h.1)]
  refine ⟨s₄,s₅,h₄,h₅,fun q hq => ?_,?_,?_⟩
  · have hne : q ≠ O ++ [metaBackupFilename] := by
      rintro rfl
      exact not_prefix_self O _ hq
    rw [(hbacked q).1, if_neg (fun h => hne h.1)]
    split_ifs
    · exact .inr rfl
    · exact hpass₄ q hq
  · have hfar : ¬S ++ [metaFilename] <+: O := (hapart.append_left _).1
    have hdd : ¬S ++ [fi.dataDir] <+: S ++ [metaFilename] := by simpa using hnames.1
    have hnew : ¬O ++ [fi.dataDir] <+: S ++ [metaFilename] := (hapart.append _ _).2
    have hne : S ++ [metaFilename] ≠ O ++ [metaBackupFilename] := fun he =>
      (hapart.append [metaFilename] [metaBackupFilename]).1 (he ▸ List.prefix_rfl)
    rw [hkept _ hfar hne, (hmoved _ hdd).1, if_neg (fun h => hnew h.1), if_neg (fun h => hfar h.1),
      hstaged.file]
  · have hne : O ++ [metaFilename] ≠ O ++ [metaBackupFilename] := by
      simp
      decide
    rw [hkept _ (not_prefix_self O _) hne, hfile₄ _ hnames.1.symm]
    exact hmeta

/-- A promotion succeeds if nothing is in its way. -/
theorem renameData_progress (hvol : srcVolume ≠ dstVolume)
    (h : Renamable c srcVolume srcPath fi dstVolume dstPath t raw existing encoded) :
    ∃ old t', renameData c srcVolume srcPath fi dstVolume dstPath t = .ok old t' := by
  obtain ⟨u,s₁,h₁⟩ := h.volume
  have hgrown := requireVol_ok dstVolume t s₁ u h₁
  obtain ⟨s₂,s₃,h₂,h₃,hstaged,hpass⟩ := h.stages hvol s₁ hgrown
  obtain ⟨s₄,s₅,h₄,h₅,hpass₅,hsrc,hdst⟩ := h.moves hvol s₃ hstaged hpass
  set S := filePath srcVolume srcPath with hS
  set O := filePath dstVolume dstPath with hO
  have hapart : Apart S O := apart_cons hvol _ _
  obtain ⟨s₆,h₆,hgrown₆⟩ := createDirs_progress O s₅ hpass₅
  obtain ⟨s₇,h₇⟩ := rename_progress s₆ _ O metaFilename encoded
    (by rw [(hgrown₆ O).1, if_pos List.prefix_rfl])
    (by rw [(hgrown₆ _).1, if_neg (hapart.append_left _).1, hsrc])
    (by rw [look_longer hgrown₆]; exact hdst)
  have hrename : renameNode (S ++ [metaFilename]) (O ++ [metaFilename]) s₆ = .ok () s₇ := by
    rw [renameNode, change_eq_ok, h₇]
    rfl
  have hprior : probe (priorVersions c dstVolume dstPath) s₁ = .ok (raw,existing) s₁ := by
    rw [probe_eq_ok, priorVersions_congr c dstVolume dstPath t s₁ (hgrown.readFile _)]
    · exact ⟨h.prior,rfl⟩
    · intro hp
      have := hp.length_le
      simp [metaPath, filePath] at this
  have hencodes : lift (encodeVersions c (mergeVersions fi dstVolume dstPath existing)) s₁ =
      .ok encoded s₁ := (lift_eq_ok _ _ _ _).mpr ⟨h.encodes,rfl⟩
  have hsource : lift (refuse (isSystemVol srcVolume = false) (.invalidArgument
      ("rename_data: src_volume must be a system volume (got " ++ srcVolume ++ ")"))) t =
      .ok () t := by
    rw [lift_eq_ok, refuse, if_neg (by simp [h.source])]
    exact ⟨rfl,rfl⟩
  refine ⟨(oldDataDir fi existing).getD "",
    left (change (fun t => (removeDir t S).mapError osError) s₇),?_⟩
  rw [renameData, bind_of_ok hsource, bind_of_ok h₁, bind_of_ok hprior]
  simp only
  rw [bind_of_ok hencodes, bind_of_ok h₂, bind_of_ok h₃, bind_of_ok h₄, bind_of_ok h₅,
    bind_of_ok h₆, bind_of_ok hrename]
  rfl

variable {s s' : Disk}

theorem passable_of_grown {p q : Path} (hs : Grown p t s) (hs' : Grown q s s') :
    Passable t q := by
  intro r hr
  have hpass := (hs' r).2 hr
  rw [(hs r).1] at hpass
  split_ifs at hpass with hp
  · exact (hs r).2 hp
  · exact hpass

theorem moveDataDir_target {staged object : Path} {dataDir : String} {u : Unit}
    (hapart : Apart staged object) (h : moveDataDir staged object dataDir s = .ok u s')
    (hne : dataDir ≠ "") (hdir : look s (staged ++ [dataDir]) = some .dir) :
    Vacant s (object ++ [dataDir]) := by
  rw [moveDataDir, if_pos ⟨hne,(isDir_iff _ _).mpr hdir⟩] at h
  obtain ⟨_,s₁,h₁,hren⟩ := (run_bind_eq_ok _ _ _ _ _).mp h
  rw [renameNode, change_eq_ok, mapError_eq_ok] at hren
  have hgrown := createDirs_ok object s s₁ _ h₁
  have hsrc : look s₁ (staged ++ [dataDir]) = some .dir := by
    rw [(hgrown _).1, if_neg (hapart.append_left [dataDir]).1, hdir]
  have hvacant := rename_dir_target s₁ s' _ _ hren hsrc fun he =>
    (hapart.append [dataDir] [dataDir]).1 (he ▸ List.prefix_rfl)
  simp only [Vacant, List.append_assoc, List.singleton_append, look_longer hgrown] at hvacant ⊢
  exact hvacant

theorem writeBackup_target {object : Path} {raw : Bytes} {u : Unit}
    (h : writeBackup object true (some raw) s = .ok u s') :
    look s (object ++ [metaBackupFilename]) ≠ some .dir := by
  obtain ⟨_,s₁,h₁,hw⟩ := (run_bind_eq_ok _ _ _ _ _).mp h
  rw [overwrite, change_eq_ok, mapError_eq_ok] at hw
  have htarget := writeFile_target _ _ _ _ hw
  rwa [look_longer (createDirs_ok object s s₁ _ h₁)] at htarget

/-- A promotion that succeeded had nothing in its way. -/
theorem renamable_of_ok (hvol : srcVolume ≠ dstVolume) {t' : Disk} {old : String}
    (h : renameData c srcVolume srcPath fi dstVolume dstPath t = .ok old t') :
    ∃ raw existing encoded,
      Renamable c srcVolume srcPath fi dstVolume dstPath t raw existing encoded := by
  have hpromoted := renameData_promoted c srcVolume srcPath fi dstVolume dstPath hvol t t' old h
  simp only [renameData, run_bind_eq_ok, lift_eq_ok, probe_eq_ok, pure_eq_ok] at h
  obtain ⟨_,_,⟨hsource,rfl⟩,_,s₁,h₁,⟨raw,existing⟩,_,⟨hprior,rfl⟩,encoded,_,⟨henc,rfl⟩,_,s₂,h₂,_,s₃,
    h₃,_,s₄,h₄,_,s₅,h₅,-⟩ := h
  have hnames := dataDir_ne_file_names c _ encoded henc fi
    ((List.mem_insertionSort _).mpr (by simp))
  have g₁ := requireVol_ok dstVolume t _ _ h₁
  have g₂ := createDirs_ok _ s₁ s₂ _ h₂
  have hs₃ := staged_ok srcVolume srcPath dstVolume hvol t _ s₂ s₃ encoded g₁ g₂
    (overwrite_ok encoded _ s₂ s₃ _ h₃)
  have hprior' : priorVersions c dstVolume dstPath t = .ok (raw,existing) := by
    rw [← hprior]
    apply (priorVersions_congr c dstVolume dstPath t _ (g₁.readFile _)).symm
    intro hp
    have := hp.length_le
    simp [metaPath, filePath] at this
  have hlong : ∀ x r, ¬filePath dstVolume dstPath ++ x::r <+: [dstVolume] := by
    intro x r hp
    have := hp.length_le
    simp [filePath] at this
  have hapart : Apart (filePath srcVolume srcPath) (filePath dstVolume dstPath) :=
    apart_cons hvol _ _
  have hbelow : ∀ x r, look s₃ (filePath dstVolume dstPath ++ x::r) =
      look t (filePath dstVolume dstPath ++ x::r) := by
    intro x r
    rw [hs₃.outside _ (hapart.symm.append_left _).symm, if_neg (hlong x r)]
  refine ⟨raw,existing,encoded,?_,⟨_,_,h₁⟩,hprior',henc,passable_of_grown g₁ g₂,?_,?_,?_,?_⟩
  · by_contra hsys
    rw [refuse, if_pos (Bool.not_eq_true _ ▸ hsys)] at hsource
    cases hsource
  · have htarget := h₃
    rw [overwrite, change_eq_ok, mapError_eq_ok] at htarget
    have hne := writeFile_target _ _ _ _ htarget
    have hout : ¬filePath srcVolume srcPath ++ [metaFilename] <+: [dstVolume] := fun hp =>
      hvol (List.cons_prefix_cons.mp hp).1
    rwa [look_longer g₂, (g₁ _).1, if_neg hout] at hne
  · obtain ⟨_,_,_,hp⟩ := hpromoted
    exact hp.above
  · intro hne hdir
    rw [← hs₃.below _ [] hnames.1] at hdir
    have hvacant := moveDataDir_target hapart h₄ hne hdir
    simp only [Vacant, List.append_assoc, List.singleton_append, hbelow] at hvacant ⊢
    exact hvacant
  · intro hheld
    rcases priorVersions_ok c dstVolume dstPath t raw existing hprior' with ⟨-,rfl,-⟩ | ⟨b,rfl,-⟩
    · cases hheld
    · rw [hheld] at h₅
      have htarget := writeBackup_target h₅
      have hmoved := moveDataDir_ok _ _ fi.dataDir hapart s₃ s₄ _ h₄
        (filePath dstVolume dstPath ++ [metaBackupFilename]) (hapart.append _ _).1
      rwa [hmoved.1, if_neg (fun hp => hnames.2 (by simpa using hp.1)),
        if_neg (fun hp => not_prefix_self _ _ hp.1), hbelow] at htarget

end Rename

end Openlake.RenameProgress
