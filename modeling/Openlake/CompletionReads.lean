import Openlake.Leftovers

/-!
# What a completion reads

A completion goes by what it reads before it changes anything: the session
records, the sidecars of the listed parts and the etags. Which of them it finds
depends on the files alone, so deleting other entries changes none of it.
-/

set_option autoImplicit false

namespace Openlake.CompletionReads
open Openlake.Types XlMeta LocalFs Promote Ops Multipart PartFiles Sessions Completion Leftovers
open Lib.FileTree Lib.Effects Lib.FanOut

variable {n : ℕ} (c : MetaCodec) (sidecars : Rmp ObjectPartInfo) (session dataDir : String)

def fileOf : Option (Kind Bytes) → Option Bytes
  | some (.file bytes) => some bytes
  | _ => none

def recordOn (t : Disk) : Option FileInfo :=
  (fileOf (look t (metaPath multipartVol session))).bind fun raw =>
    (versionFrom c multipartVol session raw none false).toOption

def agreed (disks : Disks n) : Option FileInfo :=
  let valid := (List.ofFn disks).filterMap (recordOn c session)
  (majorityKey (n/2+1) [] (valid.map sessionKey)).map fun winner =>
    (valid.find? (fun fi => sessionKey fi = winner)).getD {}

def sidecarOn (a : UInt32) (t : Disk) : Option Bytes :=
  fileOf (look t (partsDir session dataDir ++ [metaName a]))

def partInfo (disks : Disks n) (p : CompletePart) : Option ObjectPartInfo :=
  ((List.ofFn disks).filterMap (sidecarOn session dataDir p.partNumber)).head?.bind fun bytes =>
    (sidecars.decode bytes).toOption

structure Checked (disks : Disks n) (parts : List CompletePart) (fi : FileInfo)
    (infos : List ObjectPartInfo) (digests : Bytes) : Prop where
  agrees : agreed c session disks = some fi
  dataDir : fi.dataDir ≠ ""
  sidecars : List.Forall₂ (fun p info => partInfo sidecars session fi.dataDir disks p = some info)
    parts infos
  etags : checkEtags parts infos = .ok digests

section Unique

variable {c sidecars session dataDir} {disks : Disks n} {parts : List CompletePart}

variable {infos infos' : List ObjectPartInfo}

theorem partInfos_unique
    (h : List.Forall₂ (fun p info => partInfo sidecars session dataDir disks p = some info) parts
      infos)
    (h' : List.Forall₂ (fun p info => partInfo sidecars session dataDir disks p = some info) parts
      infos') : infos = infos' :=
  Relator.RightUnique.forall₂ (fun _ _ _ hp hp' => Option.some.inj (hp.symm.trans hp')) h h'

theorem Checked.unique {fi fi' : FileInfo}
    {digests digests' : Bytes} (h : Checked c sidecars session disks parts fi infos digests)
    (h' : Checked c sidecars session disks parts fi' infos' digests') :
    fi = fi' ∧ infos = infos' ∧ digests = digests' := by
  obtain rfl : fi = fi' := Option.some.inj (h.agrees.symm.trans h'.agrees)
  obtain rfl := partInfos_unique h.sidecars h'.sidecars
  exact ⟨rfl,rfl,Except.ok.inj (h.etags.symm.trans h'.etags)⟩

end Unique

section Reads

theorem fileOf_eq_some (k : Option (Kind Bytes)) (b : Bytes) :
    fileOf k = some b ↔ k = some (.file b) := by
  rcases k with _ | ⟨⟨⟩ | _⟩ <;> simp [fileOf]

theorem look_volume {path : String} {t : Disk} {k : Kind Bytes}
    (hpath : ¬filePath multipartVol path <+: [multipartVol])
    (h : look t (filePath multipartVol path) = some k) : look t [multipartVol] = some .dir := by
  cases hseg : segments path with
  | nil => exact absurd (by rw [filePath, hseg]) hpath
  | cons x q =>
    rw [filePath, hseg] at h
    exact look_above t [multipartVol] q x k h

theorem toOption_readFile (path : String) (t : Disk)
    (hpath : ¬filePath multipartVol path <+: [multipartVol]) :
    (value (LocalFs.readFile multipartVol path t)).toOption.join =
      fileOf (look t (filePath multipartVol path)) := by
  refine Option.ext fun b => ?_
  rw [fileOf_eq_some]
  constructor
  · intro h
    apply readFile_some multipartVol path t b hpath
    cases hv : value (LocalFs.readFile multipartVol path t) with
    | error e => rw [hv] at h; cases h
    | ok a =>
      rw [hv] at h
      exact congrArg Except.ok h
  · intro h
    obtain ⟨s,hs,hsame⟩ := requireVol_of_dir multipartVol t (look_volume hpath h)
    rw [LocalFs.readFile, bind_of_ok hs, probe, (readFile_eq_ok s _ b).mpr (by rw [hsame, h])]
    rfl

theorem toOption_readVersion (t : Disk) :
    (value (readVersion c multipartVol session none false t)).toOption = recordOn c session t := by
  rw [recordOn]
  cases hk : fileOf (look t (metaPath multipartVol session)) with
  | some raw =>
    rw [fileOf_eq_some] at hk
    have hvol : look t [multipartVol] = some .dir :=
      prefix_shows_dir t _ _ (look_above t _ [] metaFilename _ hk) (prefix_filePath _ _)
    obtain ⟨s,hs,-⟩ := requireVol_of_dir multipartVol t hvol
    rw [readVersion_value c _ _ _ ⟨(),s,hs⟩, (readFile_eq_ok t _ raw).mpr hk]
    rfl
  | none =>
    cases hv : value (readVersion c multipartVol session none false t) with
    | error e => rfl
    | ok fi =>
      obtain ⟨raw,hraw,-⟩ := readVersion_ok c multipartVol session t none false fi hv
      rw [(readFile_eq_ok _ _ _).mp hraw] at hk
      cases hk

variable {c sidecars session dataDir} {gone : Path → Prop} {disks d : Disks n}

theorem metaPath_not_vol (path : String) : ¬metaPath multipartVol path <+: [multipartVol] := by
  intro hp
  have := hp.length_le
  simp [metaPath, filePath] at this

theorem majority_trimmed (h : ∀ i, Trimmed gone (disks i) (d i))
    (hgone : ¬gone (metaPath multipartVol session)) (sk : SessionKey) :
    Majority c session sk d ↔ Majority c session sk disks := by
  have hkey : ∀ i, keyOn c session (d i) = keyOn c session (disks i) := fun i => by
    rw [keyOn, keyOn, (h i).kept hgone (metaPath_not_vol session)]
  rw [Majority, Majority, filterMap_ofFn_congr hkey]

theorem agreed_congr (h : ∀ i, look (d i) (metaPath multipartVol session) =
    look (disks i) (metaPath multipartVol session)) :
    agreed c session d = agreed c session disks := by
  have hrecord : ∀ i, recordOn c session (d i) = recordOn c session (disks i) := fun i => by
    rw [recordOn, recordOn, h]
  rw [agreed, agreed, filterMap_ofFn_congr hrecord]

theorem agreed_trimmed (h : ∀ i, Trimmed gone (disks i) (d i))
    (hgone : ¬gone (metaPath multipartVol session)) : agreed c session d = agreed c session disks :=
  agreed_congr fun i => (h i).kept hgone (metaPath_not_vol session)

theorem partInfo_trimmed (h : ∀ i, Trimmed gone (disks i) (d i)) (p : CompletePart)
    (hgone : ¬gone (partsDir session dataDir ++ [metaName p.partNumber])) :
    partInfo sidecars session dataDir d p = partInfo sidecars session dataDir disks p := by
  have hsidecar : ∀ i, sidecarOn session dataDir p.partNumber (d i) =
      sidecarOn session dataDir p.partNumber (disks i) := fun i => by
    rw [sidecarOn, sidecarOn, (h i).kept hgone (entry_not_vol session dataDir _ [])]
  rw [partInfo, partInfo, filterMap_ofFn_congr hsidecar]

variable (c sidecars session)

theorem toOption_pickSession (metas : Fin n → Except IoError FileInfo)
    (h : ∀ i, (metas i).toOption = recordOn c session (disks i)) :
    (pickSession session (List.ofFn metas)).toOption = agreed c session disks := by
  have hvalid : (List.ofFn metas).filterMap Except.toOption =
      (List.ofFn disks).filterMap (recordOn c session) := filterMap_ofFn_congr h
  simp only [pickSession, agreed, hvalid, List.length_ofFn]
  cases majorityKey (n/2+1) []
    (((List.ofFn disks).filterMap (recordOn c session)).map sessionKey) <;> rfl

theorem toOption_pickSidecar (a : UInt32) (reads : Fin n → Except IoError (Option Bytes))
    (h : ∀ i, (reads i).toOption.join = sidecarOn session dataDir a (disks i)) (etag : String) :
    (pickSidecar sidecars a (List.ofFn reads)).toOption =
      partInfo sidecars session dataDir disks ⟨a,etag⟩ := by
  have hreads : (List.ofFn reads).filterMap (fun r => r.toOption.join) =
      (List.ofFn disks).filterMap (sidecarOn session dataDir a) := filterMap_ofFn_congr h
  rw [pickSidecar, partInfo, hreads]
  cases (List.ofFn disks).filterMap (sidecarOn session dataDir a) with
  | nil => rfl
  | cons bytes rest =>
    show ((sidecars.decode bytes).mapError _).toOption = (sidecars.decode bytes).toOption
    cases sidecars.decode bytes <;> rfl

theorem readSessionFi_run (hbelow : Below gone) (disks : Disks n) :
    ∃ d, (∀ i, Trimmed gone (disks i) (d i)) ∧
      ((∃ fi, agreed c session disks = some fi ∧ fi.dataDir ≠ "" ∧
          (readSessionFi c (fun _ => none) session).run disks = .ok fi d) ∨
        (∀ fi, agreed c session disks = some fi → fi.dataDir = "") ∧
          ∃ e, (readSessionFi c (fun _ => none) session).run disks = .error e d) := by
  have hpick : (pickSession session (List.ofFn fun i =>
      value (readVersion c multipartVol session none false (disks i)))).toOption =
        agreed c session disks :=
    toOption_pickSession c session _ fun i => toOption_readVersion c session (disks i)
  refine ⟨fun i => left (readVersion c multipartVol session none false (disks i)),
    fun i => trimmed_readVersion hbelow c session (disks i),?_⟩
  rw [readSessionFi, Prog.run_bind, bind_of_ok (run_onDisks _ _ disks), Prog.run_bind]
  simp only [attempt]
  cases hp : pickSession session (List.ofFn fun i =>
      value (readVersion c multipartVol session none false (disks i))) with
  | error e =>
    rw [hp] at hpick
    refine .inr ⟨fun fi hfi => ?_,e,rfl⟩
    rw [← hpick] at hfi
    cases hfi
  | ok fi =>
    rw [hp] at hpick
    rw [Prog.run_ofExcept, bind_of_ok ((lift_eq_ok _ _ _ _).mpr ⟨rfl,rfl⟩)]
    by_cases hdir : fi.dataDir = ""
    · rw [if_pos hdir]
      refine .inr ⟨fun fi' hfi => ?_,_,rfl⟩
      rw [← hpick] at hfi
      obtain rfl := Option.some.inj hfi
      exact hdir
    · rw [if_neg hdir]
      exact .inl ⟨fi,hpick.symm,hdir,rfl⟩

theorem readPartSidecars_run (hbelow : Below gone) (hdd : FileName dataDir)
    (hgone : ∀ a, ¬gone (partsDir session dataDir ++ [metaName a])) (parts : List CompletePart)
    (disks : Disks n) :
    ∃ d, (∀ i, Trimmed gone (disks i) (d i)) ∧
      ((∃ infos, List.Forall₂ (fun p info =>
          partInfo sidecars session dataDir disks p = some info) parts infos ∧
          (readPartSidecars sidecars session dataDir parts).run disks = .ok infos d) ∨
        (∀ infos, ¬List.Forall₂ (fun p info =>
          partInfo sidecars session dataDir disks p = some info) parts infos) ∧
          ∃ e, (readPartSidecars sidecars session dataDir parts).run disks = .error e d) := by
  induction parts generalizing disks with
  | nil => exact ⟨disks,fun i => trimmed_refl gone _,.inl ⟨[],.nil,rfl⟩⟩
  | cons p parts ih =>
    have hpath := finalMeta_not_vol session hdd p.partNumber
    have hpick : (pickSidecar sidecars p.partNumber (List.ofFn fun i => value
        (LocalFs.readFile multipartVol (finalMeta session dataDir p.partNumber)
          (disks i)))).toOption = partInfo sidecars session dataDir disks ⟨p.partNumber,p.etag⟩ :=
      toOption_pickSidecar sidecars session p.partNumber _ (fun i => by
        rw [toOption_readFile _ _ hpath, filePath_meta session dataDir hdd, sidecarOn]) p.etag
    have hread : ∀ i, Trimmed gone (disks i) (left (LocalFs.readFile multipartVol
        (finalMeta session dataDir p.partNumber) (disks i))) :=
      fun i => trimmed_readFile hbelow _ _
    obtain ⟨d,hd,hrest⟩ := ih fun i => left (LocalFs.readFile multipartVol
      (finalMeta session dataDir p.partNumber) (disks i))
    simp only [partInfo_trimmed hread _ (hgone _)] at hrest
    rw [readPartSidecars, Prog.run_bind, bind_of_ok (run_onDisks _ _ disks), Prog.run_bind]
    simp only [attempt]
    cases hp : pickSidecar sidecars p.partNumber (List.ofFn fun i =>
        value (LocalFs.readFile multipartVol (finalMeta session dataDir p.partNumber) (disks i))) with
    | error e =>
      rw [hp] at hpick
      refine ⟨_,hread,.inr ⟨fun infos h => ?_,e,rfl⟩⟩
      obtain ⟨info,infos',hinfo,-,-⟩ := List.forall₂_cons_left_iff.mp h
      rw [← hpick] at hinfo
      cases hinfo
    | ok info =>
      rw [hp] at hpick
      refine ⟨d,fun i => (hread i).trans hbelow (hd i),?_⟩
      rw [Prog.run_ofExcept, bind_of_ok ((lift_eq_ok _ _ _ _).mpr ⟨rfl,rfl⟩), Prog.run_bind]
      rcases hrest with ⟨infos,hinfos,hrun⟩ | ⟨hno,e,hrun⟩
      · rw [bind_of_ok hrun]
        exact .inl ⟨info::infos,.cons hpick.symm hinfos,rfl⟩
      · rw [bind_of_error hrun]
        refine .inr ⟨fun infos h => ?_,e,rfl⟩
        obtain ⟨_,infos',-,h',-⟩ := List.forall₂_cons_left_iff.mp h
        exact hno infos' h'

end Reads

section Sweep

def SidecarOf (parts : List CompletePart) (q : Path) : Prop :=
  ∃ p ∈ parts, q = partsDir session dataDir ++ [metaName p.partNumber]

theorem below_sidecars (parts : List CompletePart) : Below (SidecarOf session dataDir parts) := by
  rintro q ⟨p,-,rfl⟩
  exact entry_not_vol session dataDir _ []

theorem sidecarOf_inside {parts : List CompletePart} (q : Path)
    (h : SidecarOf session dataDir parts q) :
    ∃ x y r, q = filePath multipartVol session ++ x::y::r := by
  obtain ⟨p,-,rfl⟩ := h
  exact ⟨dataDir,metaName p.partNumber,[],by simp [partsDir]⟩

theorem metaPath_not_sidecar (parts : List CompletePart) :
    ¬SidecarOf session dataDir parts (metaPath multipartVol session) := by
  rintro ⟨p,-,he⟩
  simp [metaPath, partsDir] at he

theorem below_none : Below (fun _ => False) := fun _ h => h.elim

variable {session dataDir}

theorem deleteSidecars_run (hdd : FileName dataDir) (parts : List CompletePart) (t : Disk) :
    Trimmed (SidecarOf session dataDir parts) t
      ((deleteSidecars session dataDir parts).run t).2 ∧
    ∀ p ∈ parts, ¬ShowsFile ((deleteSidecars session dataDir parts).run t).2
      (partsDir session dataDir ++ [metaName p.partNumber]) := by
  induction parts generalizing t with
  | nil => exact ⟨trimmed_refl _ t,by simp⟩
  | cons p parts ih =>
    have hpath := finalMeta_not_vol session hdd p.partNumber
    have hdelete := trimmed_delete (finalMeta session dataDir p.partNumber) t hpath
    have hfile := delete_not_file (finalMeta session dataDir p.partNumber) t hpath
    rw [filePath_meta session dataDir hdd] at hdelete hfile
    obtain ⟨hrest,hgone⟩ := ih (left (delete multipartVol (finalMeta session dataDir p.partNumber)
      false t))
    constructor
    · refine (hdelete.mono ?_).trans (below_sidecars session dataDir (p::parts)) (hrest.mono ?_)
      · rintro q rfl
        exact ⟨p,List.mem_cons_self,rfl⟩
      · rintro q ⟨p',hp',rfl⟩
        exact ⟨p',List.mem_cons_of_mem _ hp',rfl⟩
    · intro p' hp'
      rcases List.mem_cons.mp hp' with rfl | hp'
      · exact hrest.not_file hfile
      · exact hgone p' hp'

end Sweep

end Openlake.CompletionReads
