import Openlake.LocalFsEffects

/-!
# Calls on files in the system volumes

A system volume is made when it is missing, and a call on a file makes the
directories above it. As long as no file is in the way, the calls below succeed
and change what their paths say.
-/

set_option autoImplicit false

namespace Openlake.LocalFs
open Openlake.Types XlMeta Lib.FileTree Lib.Effects Lib.Outcomes

theorem Grown.passable {p q : Path} {t s : Disk} (h : Grown p t s) (hq : Passable t q) :
    Passable s q := by
  intro r hr
  rw [(h r).1]
  split_ifs
  · exact .inr rfl
  · exact hq r hr

theorem createDirs_progress (p : Path) (t : Disk) (h : Passable t p) :
    ∃ s, createDirs p t = .ok () s ∧ Grown p t s := by
  obtain ⟨s,hs⟩ := createDirAll_progress t p h
  have hok : createDirs p t = .ok () s := by
    rw [createDirs, change_eq_ok, hs]
    rfl
  exact ⟨s,hok,createDirs_ok p t s () hok⟩

theorem requireVol_progress (volume : String) (hsys : isSystemVol volume) (t : Disk)
    (h : Passable t [volume]) : ∃ s, requireVol volume t = .ok () s ∧ Grown [volume] t s := by
  rw [requireVol, if_pos hsys]
  exact createDirs_progress [volume] t h

theorem prefix_filePath (volume path : String) : [volume] <+: filePath volume path := by
  simp [filePath]

section Keeping

variable (q : Path) (k : Option (Kind Bytes))

theorem keeps_createDirs (p : Path) (hq : ¬q <+: p) :
    Keeps (fun t => look t q = k) (createDirs p) := by
  apply keeps_change
  intro s t hs h
  rw [mapError_eq_ok] at h
  rw [(look_createDirAll s t p h q).1, if_neg hq, hs]

theorem keeps_overwrite (bytes : Bytes) (p : Path) (hq : q ≠ p) :
    Keeps (fun t => look t q = k) (overwrite bytes p) := by
  apply keeps_change
  intro s t hs h
  rw [mapError_eq_ok] at h
  rw [look_writeFile bytes s t p h, if_neg hq, hs]

theorem keeps_renameNode (src dst : Path) (hsrc : ¬src <+: q) (hdst : ¬dst <+: q) :
    Keeps (fun t => look t q = k) (renameNode src dst) := by
  apply keeps_change
  intro s t hs h
  rw [mapError_eq_ok] at h
  rw [look_rename s t src dst h, if_neg hdst, if_neg (fun h => hsrc h.1), hs]

theorem keeps_removeDir (p : Path) (hq : q ≠ p) :
    Keeps (fun t => look t q = k) (change (fun t => (removeDir t p).mapError osError)) := by
  apply keeps_change
  intro s t hs h
  rw [mapError_eq_ok] at h
  rw [(look_removeDir s t p h).2.2, if_neg hq, hs]

theorem keeps_requireVol (volume : String) (hq : ¬q <+: [volume]) :
    Keeps (fun t => look t q = k) (requireVol volume) := by
  rw [requireVol]
  split_ifs
  · exact keeps_createDirs q k _ hq
  · exact keeps_probe _

end Keeping

section Calls

variable (volume path x : String) {dir : Path} {t : Disk}

theorem delete_file (hsys : isSystemVol volume) (hpath : filePath volume path = dir ++ [x])
    (hdir : [volume] <+: dir) (hpass : Passable t dir) (hentry : look t (dir ++ [x]) ≠ some .dir)
    (q : Path) :
    look (left (delete volume path false t)) q =
      if q = dir ++ [x] then none else if q <+: [volume] then some .dir else look t q := by
  obtain ⟨s,hs,hgrown⟩ := requireVol_progress volume hsys t (hpass.of_prefix hdir)
  have hoff : ¬dir ++ [x] <+: [volume] := by
    intro h
    have h1 := h.length_le
    have h2 := hdir.length_le
    rw [List.length_append] at h1
    simp only [List.length_singleton] at h1 h2
    omega
  have hlook : look s (dir ++ [x]) = look t (dir ++ [x]) := by rw [(hgrown _).1, if_neg hoff]
  rw [delete, bind_of_ok hs]
  simp only [hpath]
  cases hk : look s (dir ++ [x]) with
  | none =>
    have hstat : ∃ e, stat s (dir ++ [x]) = .error e := by
      rw [stat, get_of_none s _ hk]
      exact ⟨_,rfl⟩
    obtain ⟨e,he⟩ := hstat
    have hprobe : probe (fun t => (stat t (dir ++ [x])).mapError (fileError volume path)) s =
        .error (fileError volume path e) s := by
      rw [probe, he]
      rfl
    rw [bind_of_error hprobe, left]
    by_cases hq : q = dir ++ [x]
    · rw [if_pos hq, hq, hk]
    · rw [if_neg hq, (hgrown q).1]
  | some k =>
    cases k with
    | dir => exact absurd (hlook ▸ hk) hentry
    | file b =>
      have hprobe : probe (fun t => (stat t (dir ++ [x])).mapError (fileError volume path)) s =
          .ok (.file b) s := by
        rw [probe, stat, get_of_file s _ b hk]
        rfl
      obtain ⟨s',hs'⟩ := removeFile_progress s (dir ++ [x]) b (by simp) hk
      rw [bind_of_ok hprobe, removeNode, change, hs']
      show look s' q = _
      rw [(look_removeFile s s' _ hs').2 q, (hgrown q).1]

theorem makeDirAll_made (hsys : isSystemVol volume) (hpass : Passable t (filePath volume path)) :
    ∃ s, makeDirAll volume path t = .ok () s ∧ Grown (filePath volume path) t s := by
  obtain ⟨s,hs,hgrown⟩ := requireVol_progress volume hsys t (hpass.of_prefix (prefix_filePath volume path))
  obtain ⟨s',hs',hgrown'⟩ := createDirs_progress (filePath volume path) s (hgrown.passable hpass)
  refine ⟨s',by rw [makeDirAll, bind_of_ok hs, hs'],fun q => ⟨?_,fun hq => hpass q hq⟩⟩
  rw [(hgrown' q).1, (hgrown q).1]
  by_cases hq : q <+: filePath volume path
  · rw [if_pos hq, if_pos hq]
  · rw [if_neg hq, if_neg hq, if_neg]
    exact fun h => hq (h.trans (prefix_filePath volume path))

theorem overwrite_progress (bytes : Bytes) (hdir : look t dir = some .dir)
    (hentry : look t (dir ++ [x]) ≠ some .dir) :
    ∃ s, overwrite bytes (dir ++ [x]) t = .ok () s ∧
      ∀ q, look s q = if q = dir ++ [x] then some (.file bytes) else look t q := by
  obtain ⟨s,hs⟩ := place_progress (.file bytes) t dir x hdir
  have hok : overwrite bytes (dir ++ [x]) t = .ok () s := by
    rw [overwrite, change_eq_ok, Lib.FileTree.writeFile]
    rw [look] at hentry
    cases hg : get t (dir ++ [x]) with
    | none => simp [hs, Except.mapError]
    | some c =>
      cases c with
      | file b => simp [hs, Except.mapError]
      | dir es => exact absurd (by rw [hg]; rfl) hentry
  exact ⟨s,hok,overwrite_ok bytes _ t s () hok⟩

theorem writeFile_written (hsys : isSystemVol volume) (hpath : filePath volume path = dir ++ [x])
    (hdir : [volume] <+: dir) (bytes : Bytes) (hpass : Passable t dir)
    (hentry : look t (dir ++ [x]) ≠ some .dir) :
    ∃ s, writeFile volume path bytes t = .ok () s ∧
      ∀ q, look s q =
        if q = dir ++ [x] then some (.file bytes) else if q <+: dir then some .dir
        else look t q := by
  obtain ⟨s,hs,hgrown⟩ := requireVol_progress volume hsys t (hpass.of_prefix hdir)
  obtain ⟨s',hs',hgrown'⟩ := createDirs_progress dir s (hgrown.passable hpass)
  have hlook : ∀ q, look s' q = if q <+: dir then some .dir else look t q := by
    intro q
    rw [(hgrown' q).1, (hgrown q).1]
    by_cases hq : q <+: dir
    · rw [if_pos hq, if_pos hq]
    · rw [if_neg hq, if_neg hq, if_neg]
      exact fun h => hq (h.trans hdir)
  have hoff : ¬dir ++ [x] <+: dir := by
    intro h
    have := h.length_le
    simp at this
  obtain ⟨u,hu,hwritten⟩ := overwrite_progress x bytes
    (by rw [hlook, if_pos List.prefix_rfl]) (by rw [hlook, if_neg hoff]; exact hentry)
  refine ⟨u,?_,fun q => by rw [hwritten, hlook]⟩
  rw [writeFile, bind_of_ok hs]
  simp only [hpath, List.dropLast_concat]
  rw [bind_of_ok hs', hu]

theorem createFileWriter_made (hsys : isSystemVol volume)
    (hpath : filePath volume path = dir ++ [x]) (hdir : [volume] <+: dir) (hpass : Passable t dir)
    (hentry : look t (dir ++ [x]) ≠ some .dir) :
    ∃ s, createFileWriter volume path t = .ok () s ∧
      ∀ q, look s q =
        if q = dir ++ [x] then some (.file []) else if q <+: dir then some .dir
        else look t q := by
  obtain ⟨s,hs,hlook⟩ := writeFile_written volume path x hsys hpath hdir [] hpass hentry
  refine ⟨s,?_,hlook⟩
  obtain ⟨t₁,h₁,-⟩ := requireVol_progress volume hsys t (hpass.of_prefix hdir)
  rw [writeFile, bind_of_ok h₁, run_bind_eq_ok] at hs
  obtain ⟨u,t₂,h₂,h₃⟩ := hs
  rw [overwrite, change_eq_ok, mapError_eq_ok] at h₃
  rw [createFileWriter, bind_of_ok h₁, bind_of_ok h₂, change_eq_ok, h₃]
  rfl

theorem finishFile_written (bytes : Bytes) (hpath : filePath volume path = dir ++ [x])
    (hdir : look t dir = some .dir) (hentry : look t (dir ++ [x]) ≠ some .dir) :
    ∃ s, finishFile volume path bytes.length bytes t = .ok () s ∧
      ∀ q, look s q = if q = dir ++ [x] then some (.file bytes) else look t q := by
  obtain ⟨s,hs,hlook⟩ := overwrite_progress x bytes hdir hentry
  refine ⟨s,?_,hlook⟩
  have hlen : lift (refuse (bytes.length ≠ bytes.length) (.io .unexpectedEof
      ("create_file_writer: wrote " ++ toString bytes.length ++ "/" ++ toString bytes.length))) t =
      .ok () t := by
    rw [refuse, if_neg (by simp)]
    rfl
  rw [finishFile, bind_of_ok hlen, hpath, hs]

theorem renameFile_moved (srcVolume srcPath : String) (hsrcSys : isSystemVol srcVolume)
    (hsys : isSystemVol volume) (hpath : filePath volume path = dir ++ [x])
    (hdir : [volume] <+: dir) (hpass : Passable t dir)
    (hentry : look t (dir ++ [x]) ≠ some .dir) (bytes : Bytes)
    (hsrc : look t (filePath srcVolume srcPath) = some (.file bytes))
    (hne : filePath srcVolume srcPath ≠ [srcVolume]) (hoff : ¬filePath srcVolume srcPath <+: dir) :
    ∃ s, renameFile srcVolume srcPath volume path t = .ok () s ∧
      ∀ q, look s q =
        if q = dir ++ [x] then some (.file bytes)
        else if q = filePath srcVolume srcPath then none
        else if q <+: dir then some .dir else look t q := by
  have hsrcPass : Passable t [srcVolume] := by
    apply passable_of_dir
    have hpre := prefix_filePath srcVolume srcPath
    obtain ⟨r,hr⟩ := hpre
    cases r with
    | nil => exact absurd (by simpa using hr.symm) hne
    | cons y r => exact look_above t [srcVolume] r y _ (hr ▸ hsrc)
  obtain ⟨t₁,h₁,g₁⟩ := requireVol_progress srcVolume hsrcSys t hsrcPass
  obtain ⟨t₂,h₂,g₂⟩ := requireVol_progress volume hsys t₁ (g₁.passable (hpass.of_prefix hdir))
  obtain ⟨t₃,h₃,g₃⟩ := createDirs_progress dir t₂ (g₂.passable (g₁.passable hpass))
  have hsrcDir : look t [srcVolume] = some .dir := by
    rcases hsrcPass _ List.prefix_rfl with h | h
    · have := look_below_none t [srcVolume] h (filePath srcVolume srcPath).tail
      rw [show [srcVolume] ++ (filePath srcVolume srcPath).tail = filePath srcVolume srcPath from rfl,
        hsrc] at this
      cases this
    · exact h
  have hlook : ∀ q, look t₃ q = if q <+: dir then some .dir else look t q := by
    intro q
    rw [(g₃ q).1, (g₂ q).1, (g₁ q).1]
    by_cases hq : q <+: dir
    · rw [if_pos hq, if_pos hq]
    · rw [if_neg hq, if_neg hq, if_neg (fun h => hq (h.trans hdir))]
      split_ifs with hv
      · exact (prefix_shows_dir t _ q hsrcDir hv).symm
      · rfl
  have hentry₃ : look t₃ (dir ++ [x]) ≠ some .dir := by
    rw [hlook, if_neg]
    · exact hentry
    · intro h
      have := h.length_le
      simp at this
  have hsrc₃ : look t₃ (filePath srcVolume srcPath) = some (.file bytes) := by
    rw [hlook, if_neg hoff, hsrc]
  obtain ⟨s,hs⟩ := rename_progress t₃ _ dir x bytes (by rw [hlook, if_pos List.prefix_rfl]) hsrc₃
    hentry₃
  refine ⟨s,?_,fun q => ?_⟩
  · rw [renameFile, bind_of_ok h₁, bind_of_ok h₂]
    simp only [hpath, List.dropLast_concat]
    rw [bind_of_ok h₃, change_eq_ok, hs]
    rfl
  · rw [look_rename_file t₃ s _ _ hs bytes hsrc₃ hentry₃, hlook]

end Calls

end Openlake.LocalFs
