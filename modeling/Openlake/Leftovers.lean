import Openlake.Completion
import Openlake.RenameProgress

/-!
# Disks with entries taken out

A completion that stops early may have made the multipart volume and have
deleted sidecars. What is read elsewhere is the same as before, and a promotion
succeeds then just when it would have before.
-/

set_option autoImplicit false

namespace Openlake.Leftovers
open Openlake.Types XlMeta LocalFs RenameProgress Lib.FileTree Lib.Effects

/-- The disk is as before, but for some of the entries `gone` and for the volume
of the sessions, which may have been made. -/
def Trimmed (gone : Path → Prop) (t s : Disk) : Prop :=
  ∀ q, look s q = look t q ∨ gone q ∧ look s q = none ∨
    q <+: [multipartVol] ∧ look t q = none ∧ look s q = some .dir

/-- The entries are not on the way to the volume of the sessions. -/
def Below (gone : Path → Prop) : Prop := ∀ q, gone q → ¬q <+: [multipartVol]

variable {gone gone' : Path → Prop} {t s r : Disk}

theorem trimmed_refl (gone : Path → Prop) (t : Disk) : Trimmed gone t t := fun _ => .inl rfl

theorem Trimmed.mono (h : Trimmed gone t s) (hgone : ∀ q, gone q → gone' q) : Trimmed gone' t s := by
  intro q
  rcases h q with hsame | ⟨hq,hnone⟩ | hmade
  · exact .inl hsame
  · exact .inr (.inl ⟨hgone q hq,hnone⟩)
  · exact .inr (.inr hmade)

theorem Trimmed.trans (hbelow : Below gone) (h : Trimmed gone t s) (h' : Trimmed gone s r) :
    Trimmed gone t r := by
  intro q
  rcases h' q with hsame | hgone | ⟨hq,hnone,hdir⟩
  · rw [hsame]
    exact h q
  · exact .inr (.inl hgone)
  · rcases h q with hsame | ⟨hgone,-⟩ | ⟨-,-,hmade⟩
    · exact .inr (.inr ⟨hq,hsame ▸ hnone,hdir⟩)
    · exact absurd hq (hbelow q hgone)
    · rw [hmade] at hnone
      cases hnone

theorem trimmed_of_grown (h : Grown [multipartVol] t s) : Trimmed gone t s := by
  intro q
  rw [(h q).1]
  split_ifs with hq
  · rcases (h q).2 hq with hnone | hdir
    · exact .inr (.inr ⟨hq,hnone,rfl⟩)
    · exact .inl hdir.symm
  · exact .inl rfl

theorem Trimmed.kept (h : Trimmed gone t s) {q : Path} (hgone : ¬gone q)
    (hq : ¬q <+: [multipartVol]) : look s q = look t q := by
  rcases h q with hsame | ⟨hno,-⟩ | ⟨hno,-⟩
  · exact hsame
  · exact absurd hno hgone
  · exact absurd hno hq

theorem Trimmed.not_file (h : Trimmed gone t s) {q : Path} (hq : ¬ShowsFile t q) :
    ¬ShowsFile s q := by
  rintro ⟨b,hb⟩
  rcases h q with hsame | ⟨-,hnone⟩ | ⟨-,-,hdir⟩
  · exact hq ⟨b,hsame ▸ hb⟩
  · rw [hnone] at hb
    cases hb
  · rw [hdir] at hb
    cases hb

theorem Trimmed.passable_iff (h : Trimmed gone t s) {p : Path} (hp : ∀ q, q <+: p → ¬gone q) :
    Passable s p ↔ Passable t p := by
  refine forall_congr' fun q => forall_congr' fun hq => ?_
  rcases h q with hsame | ⟨hno,-⟩ | ⟨-,hnone,hdir⟩
  · rw [hsame]
  · exact absurd hno (hp q hq)
  · simp [hnone, hdir]

theorem Trimmed.reads (h : Trimmed gone t s) {p : Path} (hp : ∀ q, q <+: p → ¬gone q)
    (hvol : ¬p <+: [multipartVol]) : Lib.FileTree.readFile s p = Lib.FileTree.readFile t p := by
  apply readFile_congr _ _ _ (h.kept (hp p List.prefix_rfl) hvol)
  intro q hq
  rw [ShowsFile, ShowsFile]
  rcases h q with hsame | ⟨hno,-⟩ | ⟨-,hnone,hdir⟩
  · rw [hsame]
  · exact absurd hno (hp q hq)
  · simp [hnone, hdir]

theorem trimmed_requireVol (t : Disk) : Trimmed gone t (left (requireVol multipartVol t)) := by
  rcases requireVol_left multipartVol t with ⟨u,s,hs,hgrown⟩ | ⟨e,he⟩
  · rw [hs]
    exact trimmed_of_grown hgrown
  · rw [he]
    exact trimmed_refl gone t

theorem keeps_trimmed (hbelow : Below gone) (t : Disk) :
    Keeps (Trimmed gone t) (requireVol multipartVol) :=
  ⟨fun s h => h.trans hbelow (trimmed_requireVol s)⟩

theorem trimmed_readVersion (hbelow : Below gone) (c : MetaCodec) (path : String) (t : Disk) :
    Trimmed gone t (left (readVersion c multipartVol path none false t)) := by
  have hkeeps : Keeps (Trimmed gone t) (readVersion c multipartVol path none false) :=
    keeps_bind (keeps_trimmed hbelow t) fun _ _ _ _ =>
      keeps_bind (keeps_probe _) fun _ _ _ _ => keeps_lift _
  exact hkeeps.kept t (trimmed_refl gone t)

theorem trimmed_readFile (hbelow : Below gone) (path : String) (t : Disk) :
    Trimmed gone t (left (LocalFs.readFile multipartVol path t)) := by
  have hkeeps : Keeps (Trimmed gone t) (LocalFs.readFile multipartVol path) :=
    keeps_bind (keeps_trimmed hbelow t) fun _ _ _ _ => keeps_probe _
  exact hkeeps.kept t (trimmed_refl gone t)

theorem removeNode_plain (p : Path) (node : Node Bytes) (t : Disk) (q : Path) :
    look (left (removeNode false p node t)) q = look t q ∨
      q = p ∧ look (left (removeNode false p node t)) q = none := by
  cases node with
  | file b =>
    rw [removeNode, change]
    cases hr : removeFile t p with
    | error e => exact .inl rfl
    | ok s =>
      rw [show left _ = s from rfl, (look_removeFile t s p hr).2 q]
      split_ifs with hq
      · exact .inr ⟨hq,rfl⟩
      · exact .inl rfl
  | dir es =>
    rw [removeNode, if_neg (by decide), change]
    cases hr : removeDir t p with
    | error e => exact .inl rfl
    | ok s =>
      rw [show left _ = s from rfl, (look_removeDir t s p hr).2.2 q]
      split_ifs with hq
      · exact .inr ⟨hq,rfl⟩
      · exact .inl rfl

theorem removeNode_file (p : Path) (hne : p ≠ []) (recursive : Bool) (t : Disk) (b : Bytes)
    (h : look t p = some (.file b)) (q : Path) :
    look (left (removeNode recursive p (.file b) t)) q = if q = p then none else look t q := by
  obtain ⟨s,hs⟩ := removeFile_progress t p b hne h
  rw [removeNode, change, hs]
  exact (look_removeFile t s p hs).2 q

theorem left_delete (path : String) (recursive : Bool) (t : Disk) :
    left (delete multipartVol path recursive t) = left (requireVol multipartVol t) ∧
      (∀ r, ¬filePath multipartVol path ++ r <+: [multipartVol] →
        look (left (requireVol multipartVol t)) (filePath multipartVol path ++ r) = none) ∨
    ∃ node, get (left (requireVol multipartVol t)) (filePath multipartVol path) = some node ∧
      left (delete multipartVol path recursive t) =
        left (removeNode recursive (filePath multipartVol path) node
          (left (requireVol multipartVol t))) := by
  rcases requireVol_left multipartVol t with ⟨u,s,hs,-⟩ | ⟨e,he⟩
  · rw [delete, bind_of_ok hs, hs]
    cases hg : get s (filePath multipartVol path) with
    | none =>
      left
      have hprobe : probe (fun t => (stat t (filePath multipartVol path)).mapError
          (fileError multipartVol path)) s =
            .error (fileError multipartVol path (missing s (filePath multipartVol path))) s := by
        rw [probe, stat, hg]
        rfl
      rw [bind_of_error hprobe]
      refine ⟨rfl,fun r _ => look_below_none s _ ?_ r⟩
      rw [look, hg]
      rfl
    | some node =>
      right
      have hprobe : probe (fun t => (stat t (filePath multipartVol path)).mapError
          (fileError multipartVol path)) s = .ok node s := by
        rw [probe, stat, hg]
        rfl
      rw [bind_of_ok hprobe]
      exact ⟨node,hg,rfl⟩
  · rw [delete, bind_of_error he, he]
    refine .inl ⟨rfl,fun r hr => ?_⟩
    by_contra hsome
    obtain ⟨k,hk⟩ := Option.ne_none_iff_exists'.mp hsome
    have hdir : look t [multipartVol] = some .dir := by
      cases hseg : segments path ++ r with
      | nil => exact absurd (by rw [filePath, List.cons_append, hseg]) hr
      | cons x q =>
        rw [filePath, List.cons_append, hseg] at hk
        exact look_above t [multipartVol] q x k hk
    obtain ⟨s,hs,-⟩ := requireVol_of_dir multipartVol t hdir
    rw [hs] at he
    cases he

theorem trimmed_delete (path : String) (t : Disk)
    (hpath : ¬filePath multipartVol path <+: [multipartVol]) :
    Trimmed (· = filePath multipartVol path) t (left (delete multipartVol path false t)) := by
  have hvol : Trimmed (· = filePath multipartVol path) t (left (requireVol multipartVol t)) :=
    trimmed_requireVol t
  rcases left_delete path false t with ⟨hsame,-⟩ | ⟨node,-,hremoved⟩
  · rw [hsame]
    exact hvol
  · rw [hremoved]
    refine hvol.trans (fun q hq => hq ▸ hpath) fun q => ?_
    rcases removeNode_plain _ node (left (requireVol multipartVol t)) q with hsame | hgone
    · exact .inl hsame
    · exact .inr (.inl hgone)

theorem delete_not_file (path : String) (t : Disk)
    (hpath : ¬filePath multipartVol path <+: [multipartVol]) :
    ¬ShowsFile (left (delete multipartVol path false t)) (filePath multipartVol path) := by
  rintro ⟨b,hb⟩
  rcases left_delete path false t with ⟨hsame,hnone⟩ | ⟨node,hnode,hremoved⟩
  · have hgone := hnone [] (by simpa using hpath)
    rw [List.append_nil] at hgone
    rw [hsame, hgone] at hb
    cases hb
  · rw [hremoved] at hb
    rcases removeNode_plain (filePath multipartVol path) node (left (requireVol multipartVol t))
      (filePath multipartVol path) with hsame | ⟨-,hgone⟩
    · rw [hsame] at hb
      obtain rfl : node = .file b :=
        Option.some.inj (hnode.symm.trans (get_of_file _ _ _ hb))
      rw [removeNode_file _ (filePath_ne_nil multipartVol path) _ _ _ hb, if_pos rfl, hb] at hsame
      cases hsame
    · rw [hgone] at hb
      cases hb

theorem delete_below (path : String) (t : Disk) (x : String) (r : Path) :
    look (left (delete multipartVol path true t)) (filePath multipartVol path ++ x::r) = none := by
  rcases left_delete path true t with ⟨hsame,hnone⟩ | ⟨node,hnode,hremoved⟩
  · rw [hsame, hnone]
    intro hp
    have := hp.length_le
    simp [filePath] at this
  · rw [hremoved]
    cases node with
    | dir es =>
      rw [removeNode, if_pos rfl, moveToTrash_look _ (filePath_ne_nil multipartVol path),
        if_pos (List.prefix_append _ _)]
    | file b =>
      have hfile : look (left (requireVol multipartVol t)) (filePath multipartVol path) =
          some (.file b) := by
        rw [look, hnode]
        rfl
      rw [removeNode_file _ (filePath_ne_nil multipartVol path) _ _ _ hfile, if_neg (by simp),
        look_below_file _ _ _ hfile]

section Renames

variable {c : MetaCodec} {srcPath : String} {fi : FileInfo} {bucket key : String}

theorem requireVol_user (hname : isSystemVol bucket = false) (t : Disk) :
    (∃ u s, requireVol bucket t = .ok u s) ↔ look t [bucket] = some .dir := by
  constructor
  · rintro ⟨u,s,hs⟩
    rw [requireVol, if_neg (by simp [hname]), probe_eq_ok] at hs
    exact checkVol_ok bucket t hs.1
  · intro h
    obtain ⟨s,hs,-⟩ := requireVol_of_dir bucket t h
    exact ⟨(),s,hs⟩

theorem Trimmed.renamable_iff (h : Trimmed gone t s) (hname : isSystemVol bucket = false)
    (hgone : ∀ q, gone q → ∃ x y r, q = filePath multipartVol srcPath ++ x::y::r)
    (raw : Option Bytes) (existing : List DecodedRecord) (encoded : Bytes) :
    Renamable c multipartVol srcPath fi bucket key s raw existing encoded ↔
      Renamable c multipartVol srcPath fi bucket key t raw existing encoded := by
  have hvol : bucket ≠ multipartVol := by rintro rfl; cases hname
  have huser : ∀ r, ¬gone (bucket::r) := by
    intro r hr
    obtain ⟨x,y,r',he⟩ := hgone _ hr
    exact hvol (List.cons.inj he).1
  have hout : ∀ r, look s (bucket::r) = look t (bucket::r) := fun r =>
    h.kept (huser r) fun hp => hvol (List.cons_prefix_cons.mp hp).1
  have hway : ∀ q, q <+: filePath bucket key → ¬gone q := by
    intro q hq hg
    obtain ⟨x,y,r,rfl⟩ := hgone q hg
    exact hvol (List.cons_prefix_cons.mp hq).1.symm
  have hstaged : ∀ q, q <+: filePath multipartVol srcPath → ¬gone q := by
    intro q hq hg
    obtain ⟨x,y,r,rfl⟩ := hgone q hg
    have := hq.length_le
    simp at this
  have hentry : ∀ x, look s (filePath multipartVol srcPath ++ [x]) =
      look t (filePath multipartVol srcPath ++ [x]) := by
    intro x
    apply h.kept
    · intro hg
      obtain ⟨y,z,r,he⟩ := hgone _ hg
      simp at he
    · intro hp
      have := hp.length_le
      simp [filePath] at this
  have hprior : priorVersions c bucket key s = priorVersions c bucket key t := by
    apply priorVersions_congr
    apply h.reads
    · intro q hq hg
      obtain ⟨x,y,r,rfl⟩ := hgone q hg
      exact hvol (List.cons_prefix_cons.mp hq).1.symm
    · exact fun hp => hvol (List.cons_prefix_cons.mp hp).1
  have hvolume : (∃ u s', requireVol bucket s = .ok u s') ↔
      ∃ u s', requireVol bucket t = .ok u s' := by
    rw [requireVol_user hname, requireVol_user hname, hout]
  have hvacant : ∀ x, Vacant s (filePath bucket key ++ [x]) ↔ Vacant t (filePath bucket key ++ [x]) := by
    intro x
    simp only [Vacant, filePath, List.cons_append, hout]
  have hbackup : look s (filePath bucket key ++ [metaBackupFilename]) =
      look t (filePath bucket key ++ [metaBackupFilename]) := hout _
  constructor
  · intro hr
    exact ⟨hr.source,hvolume.mp hr.volume,hprior ▸ hr.prior,hr.encodes,
      (h.passable_iff hstaged).mp hr.staged,hentry _ ▸ hr.stagedMeta,
      (h.passable_iff hway).mp hr.object,
      fun hne hdir => (hvacant _).mp (hr.dataDir hne (by rw [hentry, hdir])),
      fun hheld => hbackup ▸ hr.backup hheld⟩
  · intro hr
    exact ⟨hr.source,hvolume.mpr hr.volume,hprior ▸ hr.prior,hr.encodes,
      (h.passable_iff hstaged).mpr hr.staged,hentry _ ▸ hr.stagedMeta,
      (h.passable_iff hway).mpr hr.object,
      fun hne hdir => (hvacant _).mpr (hr.dataDir hne (by rw [← hentry, hdir])),
      fun hheld => hbackup ▸ hr.backup hheld⟩

theorem renamable_new {encoded : Bytes} (hstaged : look t (filePath multipartVol srcPath) = some .dir)
    (hmeta : look t (filePath multipartVol srcPath ++ [metaFilename]) ≠ some .dir)
    (hvol : look t [bucket] = some .dir) (hobject : Passable t (filePath bucket key))
    (hnone : look t (filePath bucket key) = none)
    (hencodes : encodeVersions c (mergeVersions fi bucket key []) = .ok encoded) :
    Renamable c multipartVol srcPath fi bucket key t none [] encoded := by
  obtain ⟨s,hs,-⟩ := requireVol_of_dir bucket t hvol
  have hbelow := look_below_none t _ hnone
  have hread : Lib.FileTree.readFile t (metaPath bucket key) = .error .notFound := by
    apply readFile_notFound t _ (hbelow _)
    rintro q hq ⟨b,hb⟩
    rcases List.prefix_concat_iff.mp hq with rfl | hq
    · rw [hbelow] at hb
      cases hb
    · rcases hobject q hq with hno | hno <;> rw [hno] at hb <;> cases hb
  refine ⟨by decide,⟨(),s,hs⟩,?_,hencodes,passable_of_dir t _ hstaged,hmeta,hobject,
    fun _ _ => .inl (hbelow _),fun h => by cases h⟩
  rw [priorVersions, hread]

end Renames

end Openlake.Leftovers
