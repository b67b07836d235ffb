import Openlake.ObjectHistory
import Openlake.PartRuns

/-!
# Completing a session

Before anything is moved the session file and the sidecars are read; that makes
the multipart volume at most. Then the sidecars of the listed parts go, and on
every disk the directory of the parts becomes the data directory of the object.
-/

set_option autoImplicit false

namespace Openlake.Completion
open Openlake.Types XlMeta XlMetaRoundTrip LocalFs Promote Records Ops Multipart PartFiles GetObject
open Sessions Lib.FileTree Lib.Effects Lib.FanOut Lib.Outcomes

variable {n : ℕ}

section Reads

variable (c : MetaCodec) (sidecars : Rmp ObjectPartInfo) {session dataDir : String}

theorem left_readVersion (volume path : String) (id : Option String) (data : Bool) (t : Disk)
    (q : Path) (hq : ¬q <+: [volume]) :
    look (left (readVersion c volume path id data t)) q = look t q := by
  have hkeeps : Keeps (fun s => look s q = look t q) (readVersion c volume path id data) :=
    keeps_bind (keeps_requireVol q _ volume hq) fun _ _ _ _ =>
      keeps_bind (keeps_probe _) fun _ _ _ _ => keeps_lift _
  exact hkeeps.kept t rfl

theorem left_readFile (volume path : String) (t : Disk) (q : Path) (hq : ¬q <+: [volume]) :
    look (left (readFile volume path t)) q = look t q := by
  have hkeeps : Keeps (fun s => look s q = look t q) (readFile volume path) :=
    keeps_bind (keeps_requireVol q _ volume hq) fun _ _ _ _ => keeps_probe _
  exact hkeeps.kept t rfl

theorem readFile_some (volume path : String) (t : Disk) (bytes : Bytes)
    (hpath : ¬filePath volume path <+: [volume])
    (h : value (readFile volume path t) = .ok (some bytes)) :
    look t (filePath volume path) = some (.file bytes) := by
  rcases requireVol_left volume t with ⟨u,s,hs,hgrown⟩ | ⟨e,he⟩
  · rw [LocalFs.readFile, bind_of_ok hs, probe] at h
    rw [← readFile_eq_ok, ← hgrown.readFile hpath]
    cases hread : Lib.FileTree.readFile s (filePath volume path) with
    | ok b =>
      rw [hread] at h
      obtain rfl := Option.some.inj (Except.ok.inj h)
      rfl
    | error e =>
      rw [hread] at h
      cases e <;> cases h
  · rw [LocalFs.readFile, bind_of_error he] at h
    cases h

def HasSidecar (session dataDir : String) (disks : Disks n) (p : CompletePart)
    (info : ObjectPartInfo) : Prop :=
  ∃ i bytes, look (disks i) (partsDir session dataDir ++ [metaName p.partNumber]) =
    some (.file bytes) ∧ sidecars.decode bytes = .ok info

theorem entry_not_vol (session dataDir x : String) (r : Path) :
    ¬partsDir session dataDir ++ x::r <+: [multipartVol] := by
  intro h
  have := h.length_le
  simp [partsDir, filePath] at this

theorem finalMeta_not_vol (session : String) {dataDir : String} (hdd : FileName dataDir) (a : UInt32) :
    ¬filePath multipartVol (finalMeta session dataDir a) <+: [multipartVol] := by
  rw [filePath_meta session dataDir hdd]
  exact entry_not_vol session dataDir _ []

theorem pickSidecar_ok (hdd : FileName dataDir) (disks : Disks n) (p : CompletePart)
    (info : ObjectPartInfo) (h : pickSidecar sidecars p.partNumber (List.ofFn (fun i =>
      value (readFile multipartVol (finalMeta session dataDir p.partNumber) (disks i)))) = .ok info) :
    HasSidecar sidecars session dataDir disks p info := by
  rw [pickSidecar] at h
  cases hreads : (List.ofFn (fun i => value (readFile multipartVol
      (finalMeta session dataDir p.partNumber) (disks i)))).filterMap
        (fun r => r.toOption.join) with
  | nil =>
    rw [hreads] at h
    cases h
  | cons bytes rest =>
    simp only [hreads, mapError_eq_ok] at h
    have hmem : bytes ∈ bytes::rest := List.mem_cons_self
    rw [← hreads] at hmem
    obtain ⟨r,hr,hbytes⟩ := List.mem_filterMap.mp hmem
    obtain ⟨i,rfl⟩ := (List.mem_ofFn' _ _).mp hr
    refine ⟨i,bytes,?_,h⟩
    rw [← filePath_meta session dataDir hdd]
    apply readFile_some _ _ _ _ (finalMeta_not_vol session hdd _)
    simp only at hbytes
    cases hv : value (readFile multipartVol (finalMeta session dataDir p.partNumber) (disks i)) with
    | error e => rw [hv] at hbytes; cases hbytes
    | ok b =>
      rw [hv] at hbytes
      exact congrArg _ (by simpa [Except.toOption] using hbytes)

theorem readPartSidecars_ok (hdd : FileName dataDir) (parts : List CompletePart)
    (infos : List ObjectPartInfo) (disks d : Disks n)
    (h : (readPartSidecars sidecars session dataDir parts).run disks = .ok infos d) :
    List.Forall₂ (HasSidecar sidecars session dataDir disks) parts infos ∧
      ∀ i q, ¬q <+: [multipartVol] → look (d i) q = look (disks i) q := by
  induction parts generalizing disks infos with
  | nil =>
    obtain ⟨rfl,rfl⟩ := (pure_eq_ok _ _ _ _).mp h
    exact ⟨.nil,fun _ _ _ => rfl⟩
  | cons p parts ih =>
    rw [readPartSidecars, Prog.run_bind, bind_of_ok (run_onDisks _ _ disks), Prog.run_bind,
      run_bind_eq_ok] at h
    obtain ⟨info,d₁,hpick,h⟩ := h
    rw [Prog.run_ofExcept, lift_eq_ok] at hpick
    obtain ⟨hpick,rfl⟩ := hpick
    rw [Prog.run_bind, run_bind_eq_ok] at h
    obtain ⟨infos',d₂,hrest,h⟩ := h
    obtain ⟨rfl,rfl⟩ := (pure_eq_ok _ _ _ _).mp h
    obtain ⟨hinfos,hlook⟩ := ih infos' _ hrest
    have hread : ∀ i q, ¬q <+: [multipartVol] → look (left (readFile multipartVol
        (finalMeta session dataDir p.partNumber) (disks i))) q = look (disks i) q :=
      fun i q hq => left_readFile _ _ _ q hq
    refine ⟨.cons ?_ ?_,fun i q hq => (hlook i q hq).trans (hread i q hq)⟩
    · exact pickSidecar_ok sidecars hdd disks p info hpick
    · refine hinfos.imp ?_
      rintro p' info' ⟨i,bytes,hlook',hdec⟩
      refine ⟨i,bytes,?_,hdec⟩
      rw [← hread i _ (entry_not_vol session dataDir _ [])]
      exact hlook'

theorem readSessionFi_look (faults : Fin n → Option IoError) (path : String) (disks d : Disks n)
    (fi : FileInfo) (h : (readSessionFi c faults path).run disks = .ok fi d) (i : Fin n) (q : Path)
    (hq : ¬q <+: [multipartVol]) : look (d i) q = look (disks i) q := by
  rw [readSessionFi, Prog.run_bind, bind_of_ok (run_onDisks _ _ disks), Prog.run_bind,
    run_bind_eq_ok] at h
  obtain ⟨fi',d',hpick,h⟩ := h
  rw [Prog.run_ofExcept, lift_eq_ok] at hpick
  obtain ⟨-,rfl⟩ := hpick
  split_ifs at h with hdir
  · cases h
  · obtain ⟨-,rfl⟩ := (pure_eq_ok _ _ _ _).mp h
    show look (left (attempt (faults i) _ _)) q = _
    cases faults i with
    | none => exact left_readVersion c _ _ _ _ _ q hq
    | some e => rfl

theorem deleteSidecars_look (hdd : FileName dataDir) (parts : List CompletePart) (t : Disk)
    (q : Path) (hvol : ¬q <+: [multipartVol])
    (hq : ∀ p ∈ parts, ¬partsDir session dataDir ++ [metaName p.partNumber] <+: q) :
    look ((deleteSidecars session dataDir parts).run t).2 q = look t q := by
  induction parts generalizing t with
  | nil => rfl
  | cons p parts ih =>
    have hdel := delete_frame multipartVol (finalMeta session dataDir p.partNumber) false t q
      (by rw [filePath_meta session dataDir hdd]; exact hq p List.mem_cons_self) hvol
    exact (ih _ fun p hp => hq p (List.mem_cons_of_mem _ hp)).trans hdel

end Reads

section Promoting

variable (c : MetaCodec)

theorem promoteVersions_ok (faults : Fin n → Option IoError) (srcVolume srcPath : String)
    (fis : Fin n → FileInfo) (bucket key : String) (disks d : Disks n)
    (h : promoteVersions c faults srcVolume srcPath fis bucket key n disks = .ok () d) (i : Fin n) :
    faults i = none ∧
    ∃ old t, renameData c srcVolume srcPath (fis i) bucket key (disks i) = .ok old t ∧
      d i = left (delete srcVolume srcPath true (dropStale bucket key (fis i) (.ok old t))) := by
  rw [promoteVersions] at h
  simp only at h
  split_ifs at h with hquorum
  obtain rfl := (EStateM.Result.ok.inj h).2
  have hall : ∀ f ∈ List.ofFn (fun i => failureOf (value (attempt (faults i)
      (renameData c srcVolume srcPath (fis i) bucket key) (disks i)))), f.isNone = true := by
    rw [← List.countP_eq_length]
    apply Nat.le_antisymm List.countP_le_length
    rw [List.length_ofFn]
    omega
  have hnone : (failureOf (value (attempt (faults i) _ _))).isNone = true :=
    hall _ ((List.mem_ofFn' _ _).mpr ⟨i,rfl⟩)
  show _ ∧ ∃ old t, _ ∧ left (delete srcVolume srcPath true (dropStale bucket key (fis i) _)) = _
  cases hfault : faults i with
  | some e => rw [hfault] at hnone; cases hnone
  | none =>
    rw [hfault] at hnone
    cases hr : renameData c srcVolume srcPath (fis i) bucket key (disks i) with
    | error e t => rw [attempt, hr] at hnone; cases hnone
    | ok old t => exact ⟨rfl,old,t,rfl,by rw [attempt, hr]⟩

variable (sidecars : Rmp ObjectPartInfo) (md5 : Bytes → Bytes) (bucket key uploadId : String)
  (call : CompleteCall n)

def assembledOn (fi : FileInfo) (infos : List ObjectPartInfo) (digests : Bytes) (i : Fin n) :
    FileInfo :=
  indexed (assembledFi bucket key call fi infos (assembledEtag md5 digests call.parts))
    (defaultErasureInfo fi.erasure.dataBlocks fi.erasure.parityBlocks (UInt8.ofNat n)) i

/-- What a call that completes has read, and what it did on each disk. -/
structure Completes (disks s d : Disks n) (fi : FileInfo) (infos : List ObjectPartInfo)
    (digests : Bytes) : Prop where
  bucketName : Buckets.validateBucketName bucket = .ok ()
  majority : Majority c (sessionPath bucket key uploadId) (sessionKey fi) disks
  dataDir : fi.dataDir ≠ ""
  sidecars : List.Forall₂ (HasSidecar sidecars (sessionPath bucket key uploadId) fi.dataDir disks)
    call.parts infos
  etags : checkEtags call.parts infos = .ok digests
  kept : ∀ i q, ¬q <+: [multipartVol] → (∀ p ∈ call.parts,
    ¬partsDir (sessionPath bucket key uploadId) fi.dataDir ++ [metaName p.partNumber] <+: q) →
      look (s i) q = look (disks i) q
  promoted : ∀ i, ∃ old t, renameData c multipartVol (sessionPath bucket key uploadId)
      (assembledOn md5 bucket key call fi infos digests i) bucket key (s i) = .ok old t ∧
    d i = left (delete multipartVol (sessionPath bucket key uploadId) true
      (dropStale bucket key (assembledOn md5 bucket key call fi infos digests i) (.ok old t)))

theorem complete_ok (disks d : Disks n) (info : ObjectInfo)
    (h : (completeMultipartUpload c sidecars md5 bucket key uploadId call).run disks = .ok info d) :
    ∃ s fi infos digests,
      Completes c sidecars md5 bucket key uploadId call disks s d fi infos digests := by
  simp only [completeMultipartUpload, assemble, Prog.run_bind, Prog.run_withLock, run_bind_eq_ok,
    Prog.run_ofExcept, lift_eq_ok] at h
  obtain ⟨_,_,⟨hname,rfl⟩,_,_,⟨-,rfl⟩,_,_,⟨-,rfl⟩,fi,d₁,hsession,infos,d₂,hinfos,digests,_,
    ⟨hetags,rfl⟩,_,d₃,hsweep,_,_,⟨-,rfl⟩,_,d₄,hpromote,hinfo⟩ := h
  obtain ⟨-,rfl⟩ := (pure_eq_ok _ _ _ _).mp hinfo
  obtain ⟨hmaj,hdir⟩ := readSessionFi_ok c _ _ disks d₁ fi hsession
  have hdd : FileName fi.dataDir := hmaj.fileName c hdir
  obtain ⟨hread,hlook⟩ := readPartSidecars_ok sidecars hdd call.parts infos d₁ d₂ hinfos
  have hlook₁ := readSessionFi_look c _ _ disks d₁ fi hsession
  rw [run_sweep] at hsweep
  obtain rfl := (EStateM.Result.ok.inj hsweep).2
  refine ⟨fun i => ((deleteSidecars (sessionPath bucket key uploadId) fi.dataDir
    call.parts).run (d₂ i)).2,fi,infos,digests,hname,hmaj,hdir,hread.imp ?_,hetags,?_,?_⟩
  · rintro p info ⟨i,bytes,hbytes,hdec⟩
    refine ⟨i,bytes,?_,hdec⟩
    rw [← hlook₁ i _ (entry_not_vol _ _ _ [])]
    exact hbytes
  · intro i q hvol hq
    rw [deleteSidecars_look hdd call.parts (d₂ i) q hvol hq, hlook i q hvol, hlook₁ i q hvol]
  · rw [run_promoteOp] at hpromote
    exact fun i => (promoteVersions_ok c _ _ _ _ _ _ _ _ hpromote i).2

variable {srcVolume srcPath old : String}

theorem promoted_old {fi : FileInfo} {t t' : Disk}
    {raw : Option Bytes} {existing : List DecodedRecord} {encoded : Bytes}
    (h : Promoted c srcVolume srcPath fi bucket key t t' old raw existing encoded)
    (hne : old ≠ "") : ∃ u, old = VersionIds.formatUuidHex u := by
  have hold := h.old_eq
  rw [hold] at hne
  obtain ⟨r,hr,-,hdir⟩ := ObjectHistory.oldDataDir_getD fi existing hne
  rw [← hold] at hdir
  rcases priorVersions_ok c bucket key t raw existing h.prior with ⟨-,rfl,-⟩ | ⟨bytes,-,hdec,-⟩
  · cases hr
  · obtain ⟨v,-,hv⟩ := decodeAll_spelled c bytes existing hdec r hr
    rw [hdir, VersionIds.formatDataDirBytes] at hv
    split_ifs at hv with hzero
    · exact absurd (hold.symm.trans hv) hne
    · exact ⟨v.dataDir,hv⟩

/-- The sweeps after a promotion leave the new data directory and the metadata. -/
theorem promotion_swept {fi : FileInfo} {t t' : Disk}
    (hvol : srcVolume ≠ bucket) (hok : renameData c srcVolume srcPath fi bucket key t = .ok old t') :
    ∃ raw existing encoded,
      Promoted c srcVolume srcPath fi bucket key t t' old raw existing encoded ∧
      ∀ x r, x = fi.dataDir ∨ x = metaFilename →
        look (left (delete srcVolume srcPath true (dropStale bucket key fi (.ok old t'))))
          (filePath bucket key ++ x::r) = look t' (filePath bucket key ++ x::r) := by
  obtain ⟨raw,existing,encoded,hp⟩ := renameData_promoted c _ _ _ _ _ hvol _ _ _ hok
  refine ⟨raw,existing,encoded,hp,fun x r hx => ?_⟩
  have hlong : ∀ v, ¬filePath bucket key ++ x::r <+: [v] := by
    intro v hpre
    have := hpre.length_le
    simp [filePath] at this
  have hoff : ¬filePath srcVolume srcPath <+: filePath bucket key ++ x::r := fun hpre =>
    hvol (List.cons_prefix_cons.mp hpre).1
  rw [delete_frame _ _ _ _ _ hoff (hlong _), dropStale]
  split_ifs with hold
  · obtain ⟨u,rfl⟩ := promoted_old c bucket key hp hold.1
    apply delete_frame _ _ _ _ _ _ (hlong _)
    rw [filePath_child _ _ _ (fileName_formatUuidHex u), List.prefix_append_right_inj,
      List.cons_prefix_cons]
    rintro ⟨rfl,-⟩
    rcases hx with he | he
    · exact hold.2 he
    · exact VersionIds.formatUuidHex_ne u metaFilename (by decide) he
  · rfl

theorem validName_user (h : Buckets.validateBucketName bucket = .ok ()) :
    isSystemVol bucket = false := by
  have hnames : ∀ v ∈ [stagingVol,multipartVol,systemBucket],
      (Buckets.validateBucketName v).toOption = none := by decide +kernel
  by_contra hsys
  have hmem : bucket ∈ [stagingVol,multipartVol,systemBucket] := by
    simpa only [isSystemVol, Bool.not_eq_false, Bool.or_eq_true, decide_eq_true_eq, List.mem_cons,
      List.not_mem_nil, or_false, or_assoc] using hsys
  have := hnames bucket hmem
  rw [h] at this
  cases this

variable {c sidecars md5 bucket key uploadId call} {disks s d : Disks n} {fi : FileInfo}
  {infos : List ObjectPartInfo} {digests : Bytes}

section

variable (h : Completes c sidecars md5 bucket key uploadId call disks s d fi infos digests)

include h

theorem Completes.user : multipartVol ≠ bucket := by
  rintro rfl
  exact absurd (validName_user _ h.bucketName) (by decide)

theorem Completes.swept (i : Fin n) : ∃ old t raw existing encoded,
      Promoted c multipartVol (sessionPath bucket key uploadId)
        (assembledOn md5 bucket key call fi infos digests i) bucket key (s i) t old raw existing
          encoded ∧
      ∀ x r, x = fi.dataDir ∨ x = metaFilename →
        look (d i) (filePath bucket key ++ x::r) = look t (filePath bucket key ++ x::r) := by
  obtain ⟨old,t,hrename,hd⟩ := h.promoted i
  obtain ⟨raw,existing,encoded,hp,hswept⟩ := promotion_swept c bucket key h.user hrename
  exact ⟨old,t,raw,existing,encoded,hp,by rw [hd]; exact hswept⟩

theorem Completes.entry (i : Fin n) (x : String) (hx : ∀ p ∈ call.parts, x ≠ metaName p.partNumber) :
    look (s i) (partsDir (sessionPath bucket key uploadId) fi.dataDir ++ [x]) =
      look (disks i) (partsDir (sessionPath bucket key uploadId) fi.dataDir ++ [x]) := by
  apply h.kept i _ (entry_not_vol _ _ _ [])
  intro p hmem hpre
  rw [List.prefix_append_right_inj] at hpre
  exact hx p hmem (List.cons_prefix_cons.mp hpre).1.symm

/-- The object has the files of the parts where there were any, and keeps its own otherwise. -/
theorem Completes.shows (i : Fin n) (x : String) (hx : ∀ p ∈ call.parts, x ≠ metaName p.partNumber) :
    look (d i) (filePath bucket key ++ [fi.dataDir,x]) =
      if isDir (s i) (partsDir (sessionPath bucket key uploadId) fi.dataDir) then
        look (disks i) (partsDir (sessionPath bucket key uploadId) fi.dataDir ++ [x])
      else look (disks i) (filePath bucket key ++ [fi.dataDir,x]) := by
  obtain ⟨old,t,raw,existing,encoded,hp,hswept⟩ := h.swept i
  have hshows := hp.shows (filePath bucket key ++ [fi.dataDir,x]) (apart_cons h.user _ _)
  have hlen : ∀ y, filePath bucket key ++ [fi.dataDir,x] ≠ filePath bucket key ++ [y] := by
    simp
  have hlong : ¬filePath bucket key ++ [fi.dataDir,x] <+: filePath bucket key := by
    intro hpre
    have := hpre.length_le
    simp at this
  rw [show (assembledOn md5 bucket key call fi infos digests i).dataDir = fi.dataDir from rfl,
    metaPath, if_neg (hlen _), if_neg (fun hb => hlen _ hb.1)] at hshows
  rw [hswept _ _ (.inl rfl), hshows]
  by_cases hdir : isDir (s i) (partsDir (sessionPath bucket key uploadId) fi.dataDir)
  · rw [if_pos ⟨by simp,h.dataDir,hdir⟩, if_pos hdir, ← h.entry i x hx]
    simp [partsDir]
  · rw [if_neg (fun hc => hdir hc.2.2), if_neg hlong, if_neg hdir, h.kept i]
    · exact fun hpre => h.user (List.cons_prefix_cons.mp hpre).1.symm
    · exact fun p _ hpre => h.user (List.cons_prefix_cons.mp hpre).1

theorem Completes.carried (i : Fin n) (x : String) (hx : ∀ p ∈ call.parts, x ≠ metaName p.partNumber)
    (k : Kind Bytes)
    (hsome : look (disks i) (partsDir (sessionPath bucket key uploadId) fi.dataDir ++ [x]) =
      some k) : look (d i) (filePath bucket key ++ [fi.dataDir,x]) = some k := by
  have hdir : isDir (s i) (partsDir (sessionPath bucket key uploadId) fi.dataDir) := by
    rw [isDir_iff]
    exact look_above _ _ [] x k ((h.entry i x hx).trans hsome)
  rw [h.shows i x hx, if_pos hdir, hsome]

theorem Completes.moved (i : Fin n) (x : String) (hx : ∀ p ∈ call.parts, x ≠ metaName p.partNumber)
    (hnew : look (disks i) (filePath bucket key ++ [fi.dataDir]) = none) :
    look (d i) (filePath bucket key ++ [fi.dataDir,x]) =
      look (disks i) (partsDir (sessionPath bucket key uploadId) fi.dataDir ++ [x]) := by
  cases hk : look (disks i) (partsDir (sessionPath bucket key uploadId) fi.dataDir ++ [x]) with
  | some k => exact h.carried i x hx k hk
  | none =>
    have hnone : look (disks i) (filePath bucket key ++ [fi.dataDir,x]) = none := by
      simpa using look_below_none _ (filePath bucket key ++ [fi.dataDir]) hnew [x]
    rw [h.shows i x hx, hk, hnone, ite_self]

theorem Completes.recorded (i : Fin n) : ∃ existing encoded,
      encodeVersions c (mergeVersions (assembledOn md5 bucket key call fi infos digests i) bucket key
        existing) = .ok encoded ∧ look (d i) (metaPath bucket key) = some (.file encoded) := by
  obtain ⟨old,t,raw,existing,encoded,hp,hswept⟩ := h.swept i
  have hshows := hp.shows (metaPath bucket key) (apart_cons h.user _ _)
  rw [if_pos rfl] at hshows
  exact ⟨existing,encoded,hp.encodes,(hswept _ _ (.inr rfl)).trans hshows⟩

end

end Promoting

end Openlake.Completion
