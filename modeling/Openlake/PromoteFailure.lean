import Openlake.PromoteUndo
import Openlake.RecordBytes

/-!
# Promotions that miss their quorum

The disks that did not promote lose only the staging directory. On a disk that
did, the undo and the cleanup together give back the state before exactly when
that state is `Restorable`.
-/

set_option autoImplicit false

namespace Openlake.PromoteFailure
open Openlake.Types XlMeta LocalFs Promote PromoteUndo RecordBytes Lib.FileTree Lib.Effects

section Bystander

variable (c : MetaCodec) (bucket : String) {t t' : Disk}

theorem prefix_singleton {q : Path} {x : String} (h : q <+: [x]) : q = [] ∨ q = [x] := by
  rcases List.prefix_concat_iff.mp (show q <+: [] ++ [x] from h) with he | hn
  · exact .inr he
  · exact .inl (List.prefix_nil.mp hn)

theorem requireVol_value (t : Disk) (hroot : look t [] = some .dir) :
    value (requireVol bucket t) =
      match look t [bucket] with
      | some .dir => .ok ()
      | some (.file _) =>
        .error (if isSystemVol bucket then osError .alreadyExists else .volumeNotFound bucket)
      | none => if isSystemVol bucket then .ok () else .error (.volumeNotFound bucket) := by
  cases t with
  | file b => cases hroot
  | dir es =>
    rw [look_dir_cons]
    by_cases hsys : isSystemVol bucket
    · rw [requireVol, if_pos hsys, createDirs, change, createDirAll_child]
      cases lookup bucket es with
      | none => simp [hsys, Except.mapError, value]
      | some node => cases node <;> simp [hsys, Except.mapError, value, kind]
    · rw [requireVol, if_neg hsys, probe, checkVol, stat_child]
      cases lookup bucket es with
      | none => simp [hsys, volumeError, value, lift]
      | some node => cases node <;> simp [hsys, value, kind, lift]

theorem kept_of_same (hroot : look t [] = some .dir) (hroot' : look t' [] = some .dir)
    (hsame : ∀ q, [bucket] <+: q → look t' q = look t q) : Kept c bucket t t' := by
  constructor
  · intro k id data
    have hval : value (requireVol bucket t') = value (requireVol bucket t) := by
      rw [requireVol_value bucket t hroot, requireVol_value bucket t' hroot',
        hsame _ List.prefix_rfl]
    have hread : Lib.FileTree.readFile t' (metaPath bucket k.name) =
        Lib.FileTree.readFile t (metaPath bucket k.name) := by
      apply readFile_congr t t' _ (hsame _ (bucket_above_meta bucket k.name))
      intro q hq
      rcases List.prefix_or_prefix_of_prefix hq (bucket_above_meta bucket k.name) with hle | hge
      · rcases prefix_singleton hle with rfl | rfl
        · rw [ShowsFile, ShowsFile, hroot, hroot']
        · rw [ShowsFile, ShowsFile, hsame _ List.prefix_rfl]
      · rw [ShowsFile, ShowsFile, hsame q hge]
    cases hv : requireVol bucket t with
    | ok u s =>
      have hv' : ∃ u s, requireVol bucket t' = .ok u s := by
        cases hv' : requireVol bucket t' with
        | ok u' s' => exact ⟨u',s',rfl⟩
        | error e s' => rw [hv, hv'] at hval; cases hval
      rw [readVersion_value c bucket k.name t' hv', readVersion_value c bucket k.name t ⟨u,s,hv⟩,
        hread]
    | error e s =>
      cases hv' : requireVol bucket t' with
      | ok u' s' => rw [hv, hv'] at hval; cases hval
      | error e' s' =>
        rw [hv, hv'] at hval
        rw [show readVersion c bucket k.name id data t' = .error e' s' from bind_of_error hv' _,
          show readVersion c bucket k.name id data t = .error e s from bind_of_error hv _]
        exact congrArg Except.error (Except.error.inj hval)
  · intro k id fi _ _ hdir
    rwa [isDir_iff, hsame _ (bucket_above_append bucket k.name _), ← isDir_iff]

theorem kept_refl (t : Disk) : Kept c bucket t t := ⟨fun _ _ _ => rfl,fun _ _ _ _ _ h => h⟩

section Cleanup

variable {bucket} {srcVolume srcPath : String}

theorem apart_bucket (hvol : srcVolume ≠ bucket) (q : Path) (hq : [bucket] <+: q) :
    Apart (filePath srcVolume srcPath) q := Apart.of_prefix (apart_cons hvol _ []) hq

theorem cleanup_look (hvol : srcVolume ≠ bucket) (s : Disk) (q : Path) (hq : [bucket] <+: q) :
    look (left (delete srcVolume srcPath true s)) q = look s q := by
  apply delete_frame
  · exact (apart_bucket hvol q hq).1
  · exact (Apart.of_prefix (apart_cons hvol [] []) hq).2

theorem cleanup_kept (hvol : srcVolume ≠ bucket) (t : Disk) :
    Kept c bucket t (left (delete srcVolume srcPath true t)) := by
  rcases delete_left srcVolume srcPath true t with hsame | ⟨s,hgrown,hs⟩
  · rw [hsame]
    exact kept_refl c bucket t
  · have hroot : look t [] = some .dir := ((hgrown []).2 List.nil_prefix).resolve_left nofun
    have hroot' : look (left (delete srcVolume srcPath true t)) [] = some .dir := by
      rw [hs [] (fun h => filePath_ne_nil _ _ (List.prefix_nil.mp h)), (hgrown []).1,
        if_pos List.nil_prefix]
    exact kept_of_same c bucket hroot hroot' (cleanup_look hvol t)

end Cleanup

end Bystander

section Disk

variable {c : MetaCodec} {bucket srcVolume srcPath : String} {fi : FileInfo} {key : ObjectKey} {t t₁ : Disk}
  {old : String} {raw : Option Bytes} {existing : List DecodedRecord} {encoded : Bytes}

theorem holds_iff (h : priorVersions c bucket key.name t = .ok (raw,existing)) (id : String) :
    Holds c bucket key.name t id ↔ existing.any (fun r => r.versionId = id) := by
  constructor
  · rintro ⟨raw',existing',h',hany⟩
    rw [h] at h'
    cases h'
    exact hany
  · exact fun hany => ⟨raw,existing,h,hany⟩

theorem shows_backup (hvol : srcVolume ≠ bucket)
    (h : Promoted c srcVolume srcPath fi bucket key.name t t₁ old raw existing encoded) :
    look t₁ (filePath bucket key.name ++ [metaBackupFilename]) =
      if existing.any (fun r => r.versionId = fi.versionId) then raw.map .file
      else look t (filePath bucket key.name ++ [metaBackupFilename]) := by
  have hnames := dataDir_ne_file_names c _ encoded h.encodes fi
    ((List.mem_insertionSort _).mpr (by simp))
  have hmeta : filePath bucket key.name ++ [metaBackupFilename] ≠ metaPath bucket key.name := by
    simp [metaPath, metaFilename, metaBackupFilename]
  have hdir : ¬filePath bucket key.name ++ [fi.dataDir] <+:
      filePath bucket key.name ++ [metaBackupFilename] := by
    rw [List.prefix_append_right_inj]
    simpa using hnames.2
  have hup : ¬filePath bucket key.name ++ [metaBackupFilename] <+: filePath bucket key.name :=
    fun hp => by simpa using hp.length_le
  rw [h.shows _ (apart_bucket hvol _ (bucket_above_append bucket key.name _)), if_neg hmeta]
  simp only [hdir, hup, true_and, false_and, if_false]

theorem shows_rest (hvol : srcVolume ≠ bucket)
    (h : Promoted c srcVolume srcPath fi bucket key.name t t₁ old raw existing encoded) (q : Path)
    (hq : [bucket] <+: q)
    (hdir : ¬(fi.dataDir ≠ "" ∧ filePath bucket key.name ++ [fi.dataDir] <+: q))
    (hmeta : q ≠ metaPath bucket key.name)
    (hbkp : q ≠ filePath bucket key.name ++ [metaBackupFilename]) :
    look t₁ q = if q <+: filePath bucket key.name then some .dir else look t q := by
  rw [h.shows _ (apart_bucket hvol q hq), if_neg hmeta, if_neg (fun h => hbkp h.1),
    if_neg (fun h => hdir ⟨h.2.1,h.1⟩)]

theorem metaPath_not_new_dir
    (h : Promoted c srcVolume srcPath fi bucket key.name t t₁ old raw existing encoded) :
    ¬(fi.dataDir ≠ "" ∧
      filePath bucket key.name ++ [fi.dataDir] <+: metaPath bucket key.name) := by
  have hnames := dataDir_ne_file_names c _ encoded h.encodes fi
    ((List.mem_insertionSort _).mpr (by simp))
  rintro ⟨-,hp⟩
  rw [metaPath, List.prefix_append_right_inj] at hp
  exact hnames.1 (by simpa using hp)

theorem meta_nondir (h : priorVersions c bucket key.name t = .ok (raw,existing)) :
    look t (metaPath bucket key.name) ≠ some .dir := by
  rcases priorVersions_ok c bucket key.name t raw existing h with ⟨-,-,hr⟩ | ⟨bytes,-,-,hr⟩
  · rw [look_of_notFound t _ hr]
    exact nofun
  · rw [(readFile_eq_ok t _ bytes).mp hr]
    exact nofun

section

variable (hvol : srcVolume ≠ bucket)
  (h : Promoted c srcVolume srcPath fi bucket key.name t t₁ old raw existing encoded)
  (hbkp : look t (filePath bucket key.name ++ [metaBackupFilename]) ≠ some .dir)

include hvol h hbkp

/-- With a backup on the disk the undo leaves it in the place of the metadata
and takes the new data directory away. -/
theorem restores_undone (b : Bytes)
    (hb : look t₁ (filePath bucket key.name ++ [metaBackupFilename]) = some (.file b)) :
    Undone bucket key (fun q => fi.dataDir ≠ "" ∧ filePath bucket key.name ++ [fi.dataDir] <+: q) t
      (left (delete srcVolume srcPath true (left (deleteVersion bucket key.name fi t₁)))) ∧
    Lib.FileTree.readFile
      (left (delete srcVolume srcPath true (left (deleteVersion bucket key.name fi t₁))))
      (metaPath bucket key.name) = .ok b := by
  have hmeta₁ : look t₁ (metaPath bucket key.name) ≠ some .dir := by
    rw [h.shows _ (apart_bucket hvol _ (bucket_above_meta bucket key.name)), if_pos rfl]
    exact nofun
  have hundo := deleteVersion_restores bucket key.name fi t₁ b hb hmeta₁
  constructor
  · refine ⟨h.volume,h.above,meta_nondir h.prior,hbkp,?_,?_,?_,?_,?_⟩
    · rintro ⟨-,hp⟩
      simpa [filePath] using hp.length_le
    · rintro q r ⟨hdd,hq⟩ hr
      exact ⟨hdd,hq.trans hr⟩
    · rintro q r ⟨hdd,hp⟩ hq
      rcases List.prefix_or_prefix_of_prefix hq hp with hle | hge
      · rcases List.prefix_concat_iff.mp hle with rfl | hup
        · exact .inl ⟨hdd,List.prefix_rfl⟩
        · exact .inr hup
      · exact .inl ⟨hdd,hge⟩
    · rintro q ⟨hdd,hq⟩
      rw [cleanup_look hvol _ q ((bucket_above_append bucket key.name _).trans hq), hundo,
        if_pos ⟨hdd,hq⟩]
    · intro q hq hg hm hbk
      rw [cleanup_look hvol _ q hq, hundo, if_neg hg, if_neg hm, if_neg hbk,
        shows_rest hvol h q hq hg hm hbk]
  · rw [readFile_eq_ok, cleanup_look hvol _ _ (bucket_above_meta bucket key.name), hundo,
      if_neg (metaPath_not_new_dir h), if_pos rfl]

theorem erases_undone (hb : look t₁ (filePath bucket key.name ++ [metaBackupFilename]) = none) :
    Undone bucket key (fun q => filePath bucket key.name <+: q) t
      (left (delete srcVolume srcPath true (left (deleteVersion bucket key.name fi t₁)))) := by
  have hdir₁ : look t₁ (filePath bucket key.name) = some .dir := by
    rw [shows_rest hvol h _ (bucket_above bucket key.name), if_pos List.prefix_rfl]
    · rintro ⟨-,hp⟩
      simpa using hp.length_le
    · simp [metaPath]
    · simp
  have hundo := deleteVersion_erases bucket key.name fi t₁ hdir₁ hb
  refine ⟨h.volume,h.above,meta_nondir h.prior,hbkp,?_,?_,?_,?_,?_⟩
  · intro hp
    have := hp.length_le
    have hne := List.length_pos_iff.mpr key.nonempty
    simp only [filePath, List.length_cons, List.length_nil] at this
    omega
  · intro q r hq hr
    exact hq.trans hr
  · intro q r hp hq
    rcases List.prefix_or_prefix_of_prefix hq hp with hle | hge
    · exact .inr hle
    · exact .inl hge
  · intro q hq
    rw [cleanup_look hvol _ q ((bucket_above bucket key.name).trans hq), hundo, if_pos hq]
  · intro q hq hg hm hbk
    rw [cleanup_look hvol _ q hq, hundo, if_neg hg, shows_rest hvol h q hq _ hm hbk]
    rintro ⟨-,hp⟩
    exact hg ((List.prefix_append _ _).trans hp)

end

/-- What is read in the place of the old metadata is read alike exactly when
the old metadata is there and decodes alike. -/
theorem sameReads_iff (hprior : priorVersions c bucket key.name t = .ok (raw,existing)) (t' : Disk)
    (hvol : ∃ u s, requireVol bucket t = .ok u s) (hvol' : ∃ u s, requireVol bucket t' = .ok u s)
    (b : Bytes) (hb : Lib.FileTree.readFile t' (metaPath bucket key.name) = .ok b) :
    (∀ k : ObjectKey, segments k.name = segments key.name → ∀ id data,
      value (readVersion c bucket k.name id data t') =
        value (readVersion c bucket k.name id data t)) ↔ SameReads c bucket key.name t b := by
  have hpath : ∀ k : ObjectKey, segments k.name = segments key.name →
      metaPath bucket k.name = metaPath bucket key.name := by
    intro k hk
    rw [metaPath, filePath, hk]
    rfl
  have hreads : ∀ k : ObjectKey, segments k.name = segments key.name → ∀ id data,
      value (readVersion c bucket k.name id data t') = versionFrom c bucket k.name b id data := by
    intro k hk id data
    rw [readVersion_value c bucket k.name t' hvol', hpath k hk, hb]
  rcases priorVersions_ok c bucket key.name t raw existing hprior with ⟨-,-,hr⟩ | ⟨bytes,-,-,hr⟩
  · refine iff_of_false (fun h => ?_) ?_
    · apply found_versionFrom c bucket key.name b none true bucket key.name
      rw [← hreads key rfl, h key rfl, readVersion_value c bucket key.name t hvol, hr]
      rfl
    · rintro ⟨raw',hraw,-⟩
      rw [hr] at hraw
      cases hraw
  · have hold : ∀ k : ObjectKey, segments k.name = segments key.name → ∀ id data,
        value (readVersion c bucket k.name id data t) =
          versionFrom c bucket k.name bytes id data := by
      intro k hk id data
      rw [readVersion_value c bucket k.name t hvol, hpath k hk, hr]
    constructor
    · intro h
      refine ⟨bytes,hr,fun k hk id data => ?_⟩
      rw [← hreads k hk, h k hk, hold k hk]
    · rintro ⟨raw',hraw,hsame⟩ k hk id data
      obtain rfl := Except.ok.inj (hr.symm.trans hraw)
      rw [hreads k hk, hold k hk, hsame k hk]

/-- A disk that promoted and then undid is as it was before exactly under
`Restorable`. -/
theorem undo_kept_iff (hvol : srcVolume ≠ bucket)
    (h : Promoted c srcVolume srcPath fi bucket key.name t t₁ old raw existing encoded)
    (hbkp : look t (filePath bucket key.name ++ [metaBackupFilename]) ≠ some .dir) :
    Kept c bucket t
      (left (delete srcVolume srcPath true (left (deleteVersion bucket key.name fi t₁)))) ↔
    Restorable c bucket key.name t fi := by
  have hholds := holds_iff h.prior fi.versionId
  have hbackup := shows_backup hvol h
  by_cases hheld : existing.any (fun r => r.versionId = fi.versionId)
  · obtain ⟨bytes,rfl,hr⟩ : ∃ bytes, raw = some bytes ∧
        Lib.FileTree.readFile t (metaPath bucket key.name) = .ok bytes := by
      rcases priorVersions_ok c bucket key.name t raw existing h.prior with
        ⟨-,rfl,-⟩ | ⟨bytes,hraw,-,hr⟩
      · simp at hheld
      · exact ⟨bytes,hraw,hr⟩
    rw [if_pos hheld] at hbackup
    obtain ⟨hundone,hread⟩ := restores_undone hvol h hbkp bytes hbackup
    have hsame := (sameReads_iff h.prior _ h.volume hundone.volume_after bytes hread).mpr
      ⟨bytes,hr,fun _ _ _ _ => rfl⟩
    rw [hundone.kept_iff, spared_iff_newDirFree]
    constructor
    · exact fun hk => .replaced (hholds.mpr hheld) hk.1
    · rintro (⟨-,hfree⟩ | ⟨-,hnew⟩ | ⟨hnew⟩)
      · exact ⟨hfree,fun _ => hsame⟩
      · exact absurd (hholds.mpr hheld) hnew
      · exact absurd (hholds.mpr hheld) hnew
  · have hnew : ¬Holds c bucket key.name t fi.versionId := fun hh => hheld (hholds.mp hh)
    rw [if_neg hheld] at hbackup
    cases hb : look t (filePath bucket key.name ++ [metaBackupFilename]) with
    | none =>
      have hundone := erases_undone hvol h hbkp (hbackup.trans hb)
      rw [hundone.kept_iff, spared_iff_not_live]
      constructor
      · exact fun hk => .absent hnew hb hk.1
      · rintro (⟨hheld'⟩ | ⟨b,-,hb'⟩ | ⟨-,-,hdead⟩)
        · exact absurd hheld' hnew
        · rw [hb] at hb'
          cases hb'
        · exact ⟨hdead,fun hg => absurd (List.prefix_append _ _) hg⟩
    | some kind =>
      cases kind with
      | dir => exact absurd hb hbkp
      | file b =>
        obtain ⟨hundone,hread⟩ := restores_undone hvol h hbkp b (hbackup.trans hb)
        have hsame := sameReads_iff h.prior _ h.volume hundone.volume_after b hread
        rw [hundone.kept_iff, spared_iff_newDirFree, hsame]
        constructor
        · rintro ⟨hfree,hmain⟩
          exact .stale b hnew hb (hmain (metaPath_not_new_dir h)) hfree
        · rintro (⟨hheld'⟩ | ⟨b',-,hb',hsame',hfree⟩ | ⟨-,hb'⟩)
          · exact absurd hheld' hnew
          · rw [hb] at hb'
            cases hb'
            exact ⟨hfree,fun _ => hsame'⟩
          · rw [hb] at hb'
            cases hb'

end Disk

theorem promoteVersions_error {n : ℕ} (c : MetaCodec) (faults : Fin n → Option IoError)
    (srcVolume srcPath : String) (fis : Fin n → FileInfo) (bucket key : String) (quorum : ℕ)
    (disks disks' : Disks n) (e : StorageError)
    (h : promoteVersions c faults srcVolume srcPath fis bucket key quorum disks = .error e disks')
    (i : Fin n) :
    disks' i = left (delete srcVolume srcPath true (undoPromote bucket key (fis i)
      (attempt (faults i) (renameData c srcVolume srcPath (fis i) bucket key) (disks i)))) := by
  rw [promoteVersions] at h
  simp only at h
  split_ifs at h
  cases h
  rfl

/-- After a promotion that missed its quorum, every disk reads as before and
keeps its data dirs exactly when every disk that had promoted was
`Restorable`. -/
theorem failed_promotion_kept_iff {n : ℕ} (c : MetaCodec) (faults : Fin n → Option IoError)
    (srcVolume srcPath : String) (fis : Fin n → FileInfo) (bucket : String) (key : ObjectKey)
    (quorum : ℕ) (disks disks' : Disks n) (e : StorageError) (hvol : srcVolume ≠ bucket)
    (hbkp : ∀ i, look (disks i) (filePath bucket key.name ++ [metaBackupFilename]) ≠ some .dir)
    (hok : ∀ i, faults i = none → ∃ old t,
      renameData c srcVolume srcPath (fis i) bucket key.name (disks i) = .ok old t)
    (h : promoteVersions c faults srcVolume srcPath fis bucket key.name quorum disks =
      .error e disks') :
    (∀ i, Kept c bucket (disks i) (disks' i)) ↔
      ∀ i, faults i = none → Restorable c bucket key.name (disks i) (fis i) := by
  refine forall_congr' fun i => ?_
  rw [promoteVersions_error c faults srcVolume srcPath fis bucket key.name quorum disks disks' e h i]
  cases hf : faults i with
  | some fault => exact iff_of_true (cleanup_kept c hvol (disks i)) (fun h => nomatch h)
  | none =>
    obtain ⟨old,t,ht⟩ := hok i hf
    obtain ⟨raw,existing,encoded,hp⟩ := renameData_promoted c srcVolume srcPath (fis i) bucket
      key.name hvol (disks i) t old ht
    rw [show attempt none (renameData c srcVolume srcPath (fis i) bucket key.name) (disks i) =
      .ok old t from ht]
    exact (undo_kept_iff hvol hp (hbkp i)).trans ⟨fun hr _ => hr,fun hr => hr rfl⟩

def secondFails : Fin 2 → Option IoError := fun i =>
  if i = 1 then some (.io .timedOut "timed out") else none

def keyK : ObjectKey := ⟨"k",by decide,by decide⟩

def afterFailure (fi : FileInfo) (t : Disk) : Disks 2 :=
  left (promoteVersions putCodec secondFails stagingVol "s" (fun _ => fi) "b" "k" 2 (fun _ => t))

theorem emptyBucket_promotes (i : Fin 2) (_ : secondFails i = none) : ∃ old t,
    renameData putCodec stagingVol "s" firstPut "b" "k" emptyBucket = .ok old t := ⟨_,_,rfl⟩

theorem firstPut_kept_iff :
    (∀ i, Kept putCodec "b" emptyBucket (afterFailure firstPut emptyBucket i)) ↔
      ∀ i, secondFails i = none → Restorable putCodec "b" "k" emptyBucket firstPut :=
  failed_promotion_kept_iff putCodec secondFails stagingVol "s" (fun _ => firstPut) "b" keyK 2
    (fun _ => emptyBucket) (afterFailure firstPut emptyBucket) (.io (.io .timedOut "timed out"))
    (by decide) (fun _ => by decide +kernel) emptyBucket_promotes rfl

/-- A second version that reaches one of two disks: the undo there finds no
backup and removes the object with its first version. -/
theorem secondPut_undo_loses_first :
    value (renameData putCodec stagingVol "s" secondPut "b" "k" storedFirst) = .ok "" ∧
    value (promoteVersions putCodec secondFails stagingVol "s" (fun _ => secondPut) "b" "k" 2
      (fun _ => storedFirst)) = .error (.io (.io .timedOut "timed out")) ∧
    value (readVersion putCodec "b" "k" none false storedFirst) =
      .ok { firstPut with data := none, fresh := false } ∧
    value (readVersion putCodec "b" "k" none false (afterFailure secondPut storedFirst 0)) =
      .error (.fileNotFound "b" "k") := by
  decide +kernel

end Openlake.PromoteFailure
