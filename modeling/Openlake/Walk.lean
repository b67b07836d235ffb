import Openlake.LocalFsEffects

/-!
# The directory walk of a listing

The walk takes the entries of a directory in the order of their names. An entry
that reads as an object is reported and not entered, one that has no metadata
file is entered, and every other entry is passed over. The cursor and the
filter are compared with the path of an entry before it is read.

Without a cap the walk reports what `visited` collects from the tree, in the
order of the paths, segment by segment; a cap keeps the first of these.
-/

set_option autoImplicit false

namespace Openlake.LocalFs
open Openlake.Types XlMeta Lib.FileTree Lib.Effects

def readNames (t : Disk) (p : Path) : Except Errno (List String) :=
  match stat t p with
  | .ok (.dir es) => .ok (names es)
  | .ok (.file _) => .error .notADirectory
  | .error e => .error e

def listDir (volume dirPath : String) (count : ℕ) : Fs (List String) := do
  requireVol volume
  probe (fun t =>
    match readNames t (filePath volume dirPath) with
    | .ok xs => .ok (if count = 0 then xs else xs.take count)
    | .error .notFound => .ok []
    | .error e => .error (osError e))

def startsWith (s pre : String) : Bool := pre.toList.isPrefixOf s.toList

structure WalkOptions where
  recursive : Bool
  prefixFilter : String
  startAfter : Option String
  maxKeys : Option ℕ

namespace WalkOptions

variable (o : WalkOptions)

def full (out : List (String × FileInfo)) : Bool := o.maxKeys.any (· ≤ out.length)

def before (child : String) : Bool :=
  o.startAfter.any (fun after =>
    child < after && !startsWith after (child ++ "/") && after ≠ child)

def outside (child : String) : Bool :=
  o.prefixFilter ≠ "" && !startsWith child o.prefixFilter &&
    !startsWith o.prefixFilter (child ++ "/")

def rejects (name : String) : Bool :=
  (o.prefixFilter ≠ "" && !startsWith name o.prefixFilter) ||
    o.startAfter.any (fun after => !decide (after < name))

end WalkOptions

abbrev Listing := List (String × FileInfo)

section Walk

variable (c : MetaCodec) (volume : String) (o : WalkOptions)

def walkEntry (descend : String → Listing → Fs Listing) (child : String) (out : Listing) :
    Fs Listing :=
  if o.before child || o.outside child then pure out
  else do
    match ← outcome (readVersion c volume child none false) with
    | .ok fi => return if o.rejects fi.name then out else out ++ [(fi.name,fi)]
    | .error (.fileNotFound _ _) => if o.recursive then descend child out else return out
    | .error _ => return out

def walkEntries (descend : String → Listing → Fs Listing) (dir : String) :
    List String → Listing → Fs Listing
  | [],out => pure out
  | name::rest,out =>
    if o.full out then pure out
    else do
      let out ← walkEntry c volume o descend (childPath dir name) out
      walkEntries descend dir rest out

/-- The recursion is bounded by the depth of the tree. -/
def walkDirLocalInner : ℕ → String → Listing → Fs Listing
  | 0,_,_ => lift (.error (.invalidArgument "walk_dir: deeper than the tree"))
  | fuel+1,dir,out =>
    if o.full out then pure out
    else do
      let entries ← listDir volume dir 0
      walkEntries c volume o (walkDirLocalInner fuel) dir (entries.insertionSort (· ≤ ·)) out

def walkBelow (baseDir : String) : Fs Listing := fun t =>
  walkDirLocalInner c volume o (depth t) baseDir [] t

def walkDir (baseDir : String) : Fs Listing := do
  requireVol volume
  walkBelow c volume o baseDir

end Walk

def children (t : Disk) (p : Path) : List String :=
  match readNames t p with
  | .ok xs => xs.insertionSort (· ≤ ·)
  | .error _ => []

section Visited

variable (c : MetaCodec) (volume : String) (o : WalkOptions) (t : Disk)

def visitedAt (below : Path → List (Path × FileInfo)) (p : Path) : List (Path × FileInfo) :=
  if o.before (keyOf p) || o.outside (keyOf p) then []
  else
    match value (readVersion c volume (keyOf p) none false t) with
    | .ok fi => if o.rejects fi.name then [] else [(p,fi)]
    | .error (.fileNotFound _ _) => if o.recursive then below p else []
    | .error _ => []

/-- What the walk reports from below a directory, without a cap. -/
def visited : ℕ → Path → List (Path × FileInfo)
  | 0,_ => []
  | fuel+1,q =>
    (children t (volume::q)).flatMap (fun x => visitedAt c volume o t (visited fuel) (q ++ [x]))

end Visited

def reported (xs : List (Path × FileInfo)) : Listing := xs.map (fun e => (keyOf e.1,e.2))

def capped (cap : Option ℕ) (out xs : Listing) : Listing :=
  match cap with
  | none => out ++ xs
  | some n => out ++ xs.take (n-out.length)

theorem capped_nil (cap : Option ℕ) (out : Listing) : capped cap out [] = out := by
  cases cap <;> simp [capped]

theorem capped_append (cap : Option ℕ) (out xs ys : Listing) :
    capped cap (capped cap out xs) ys = capped cap out (xs ++ ys) := by
  cases cap with
  | none => exact List.append_assoc out xs ys
  | some n =>
    have hlen : n-(out ++ xs.take (n-out.length)).length = n-out.length-xs.length := by
      rw [List.length_append, List.length_take]
      omega
    simp only [capped]
    rw [hlen, List.append_assoc, List.take_append]

theorem WalkOptions.capped_of_full (o : WalkOptions) (out xs : Listing) (h : o.full out = true) :
    capped o.maxKeys out xs = out := by
  rw [WalkOptions.full] at h
  cases hm : o.maxKeys with
  | none => simp [hm] at h
  | some n =>
    have hn : n ≤ out.length := by simpa [hm] using h
    simp [capped, Nat.sub_eq_zero_of_le hn]

theorem WalkOptions.capped_singleton (o : WalkOptions) (out : Listing) (x : String × FileInfo)
    (h : o.full out = false) : capped o.maxKeys out [x] = out ++ [x] := by
  rw [WalkOptions.full] at h
  cases hm : o.maxKeys with
  | none => rfl
  | some n =>
    have hn : out.length < n := by simpa [hm] using h
    obtain ⟨k,hk⟩ := Nat.exists_eq_add_of_lt hn
    rw [capped, show n-out.length = k+1 by omega, List.take_succ_cons, List.take_nil]

theorem reported_append (xs ys : List (Path × FileInfo)) :
    reported (xs ++ ys) = reported xs ++ reported ys := List.map_append

def WellNamed (t : Disk) : Prop := ∀ q, look t q ≠ none → ∀ s ∈ q, FileName s

def Within (t : Disk) (n : ℕ) : Prop := ∀ q, look t q ≠ none → q.length ≤ n

theorem readVersion_named (c : MetaCodec) (volume path : String) (t : Disk) (id : Option String)
    (data : Bool) (fi : FileInfo) (h : value (readVersion c volume path id data t) = .ok fi) :
    fi.name = path := by
  obtain ⟨bytes,-,hfrom⟩ := readVersion_ok c volume path t id data fi h
  simp only [versionFrom] at hfrom
  cases hp : pickVersion c volume path bytes id with
  | error e => rw [hp] at hfrom; cases hfrom
  | ok r =>
    rw [hp] at hfrom
    cases data <;> · cases hfrom; rfl

def Alike (t s : Disk) : Prop := ∀ q, look s q = look t q

theorem Alike.readFile {t s : Disk} (h : Alike t s) (p : Path) :
    Lib.FileTree.readFile s p = Lib.FileTree.readFile t p :=
  readFile_congr t s p (h p) (fun q _ => by rw [ShowsFile, ShowsFile, h q])

theorem mem_children (t : Disk) (p : Path) (x : String) :
    x ∈ children t p ↔ look t (p ++ [x]) ≠ none := by
  rw [children, readNames, stat]
  cases hg : get t p with
  | none =>
    have hnone : look t p = none := by rw [look, hg]; rfl
    simp [look_below_none t p hnone]
  | some n =>
    cases n with
    | file b =>
      have hfile : look t p = some (.file b) := by rw [look, hg]; rfl
      simp [look_below_file t p b hfile]
    | dir es => rw [List.mem_insertionSort, mem_names t p es hg]

theorem children_sorted (t : Disk) (p : Path) : (children t p).Pairwise (· < ·) := by
  rw [children, readNames]
  cases stat t p with
  | error e => exact List.Pairwise.nil
  | ok n =>
    cases n with
    | file b => exact List.Pairwise.nil
    | dir es =>
      have hsorted := List.pairwise_insertionSort (· ≤ ·) (names es)
      have hnodup : ((names es).insertionSort (· ≤ ·)).Nodup :=
        (List.perm_insertionSort _ _).nodup_iff.mpr (List.nodup_dedup _)
      exact (hsorted.and hnodup).imp fun ⟨hle,hne⟩ => lt_of_le_of_ne hle hne

theorem Alike.children {t s : Disk} (h : Alike t s) (p : Path) : children s p = children t p := by
  apply (children_sorted s p).eq_of_mem_iff (children_sorted t p)
  intro x
  rw [mem_children, mem_children, h]

section Spec

variable {c : MetaCodec} {volume : String} {o : WalkOptions} {t : Disk}

section

variable (hdir : look t [volume] = some .dir) {s : Disk} (hs : Alike t s)

include hdir hs

theorem requireVol_alike :
    ∃ s', requireVol volume s = .ok () s' ∧ Alike t s' := by
  have hdir' : look s [volume] = some .dir := (hs _).trans hdir
  rw [requireVol]
  split_ifs with hsys
  · obtain ⟨s',hs'⟩ := createDirAll_progress s [volume] (passable_of_dir s _ hdir')
    have hcreate : createDirs [volume] s = .ok () s' := by
      rw [createDirs, change_eq_ok, hs']
      rfl
    refine ⟨s',hcreate,fun q => ?_⟩
    rw [(createDirs_ok [volume] s s' () hcreate q).1]
    split_ifs with hq
    · rw [prefix_shows_dir t [volume] q hdir hq]
    · exact hs q
  · obtain ⟨es,hes⟩ := get_of_dir s [volume] hdir'
    refine ⟨s,?_,hs⟩
    rw [probe_eq_ok]
    exact ⟨by rw [checkVol, stat, hes],rfl⟩

theorem readVersion_alike (path : String) :
    ∃ s', outcome (readVersion c volume path none false) s =
      .ok (value (readVersion c volume path none false t)) s' ∧ Alike t s' := by
  obtain ⟨s',hreq,hs'⟩ := requireVol_alike hdir hs
  obtain ⟨t',hreq',-⟩ := requireVol_alike hdir (s := t) (fun _ => rfl)
  have hvalue : value (readVersion c volume path none false s) =
      value (readVersion c volume path none false t) := by
    rw [readVersion_value c volume path s ⟨(),s',hreq⟩, hs.readFile,
      readVersion_value c volume path t ⟨(),t',hreq'⟩]
  refine ⟨left (readVersion c volume path none false s),by rw [outcome, hvalue],?_⟩
  have hkeep : ∀ {α : Type} (x : Fs α), Keeps (Alike t) x → Alike t (left (x s')) :=
    fun x hx => hx.kept s' hs'
  rw [readVersion, bind_of_ok hreq]
  exact hkeep _ (keeps_bind (keeps_probe _) (fun _ _ _ _ => keeps_lift _))

theorem listDir_alike (q : Path)
    (hq : ∀ x ∈ q, FileName x) (hsub : look t (volume::q) = some .dir) :
    ∃ xs s', listDir volume (keyOf q) 0 s = .ok xs s' ∧ Alike t s' ∧
      xs.insertionSort (· ≤ ·) = children t (volume::q) := by
  obtain ⟨s',hreq,hs'⟩ := requireVol_alike hdir hs
  obtain ⟨es,hes⟩ := get_of_dir s' (volume::q) ((hs' _).trans hsub)
  have hread : readNames s' (volume::q) = .ok (names es) := by rw [readNames, stat, hes]
  refine ⟨names es,s',?_,hs',by rw [← hs'.children, children, hread]⟩
  rw [listDir, bind_of_ok hreq, filePath_keyOf volume q hq, probe, hread]
  rfl

end

theorem look_of_fileNotFound (hdir : look t [volume] = some .dir) (p : Path)
    (hp : ∀ s ∈ p, FileName s) (hlook : look t (volume::p) ≠ none) (v k : String)
    (h : value (readVersion c volume (keyOf p) none false t) = .error (.fileNotFound v k)) :
    look t (volume::p) = some .dir := by
  obtain ⟨t',hreq,-⟩ := requireVol_alike hdir (s := t) (fun _ => rfl)
  rw [readVersion_value c volume _ t ⟨(),t',hreq⟩, metaPath, filePath_keyOf volume p hp,
    readFile_eq] at h
  cases hk : look t (volume::p) with
  | none => exact absurd hk hlook
  | some kd =>
    cases kd with
    | dir => rfl
    | file b =>
      have hfile : ∃ q, q <+: volume::p ++ [metaFilename] ∧ ShowsFile t q :=
        ⟨volume::p,List.prefix_append _ _,b,hk⟩
      rw [look_below_file t _ b hk, if_pos hfile] at h
      cases h

/-- From a tree like `t` the walk adds `xs` to what it has, up to the cap, and
leaves such a tree. -/
def Adds (o : WalkOptions) (t : Disk) (walk : Listing → Fs Listing)
    (xs : List (Path × FileInfo)) : Prop :=
  ∀ out s, Alike t s → ∃ s', walk out s = .ok (capped o.maxKeys out (reported xs)) s' ∧ Alike t s'

theorem adds_nil {out : Listing} {s : Disk} (hs : Alike t s) :
    ∃ s', (pure out : Fs Listing) s = .ok (capped o.maxKeys out (reported [])) s' ∧ Alike t s' := by
  refine ⟨s,?_,hs⟩
  rw [reported, List.map_nil, capped_nil]
  rfl

theorem walkEntry_adds (hdir : look t [volume] = some .dir)
    (descend : String → Listing → Fs Listing) (below : Path → List (Path × FileInfo)) (p : Path)
    (hp : ∀ s ∈ p, FileName s) (hlook : look t (volume::p) ≠ none)
    (hdesc : look t (volume::p) = some .dir → Adds o t (descend (keyOf p)) (below p))
    (out : Listing) (hfull : o.full out = false) (s : Disk) (hs : Alike t s) :
    ∃ s', walkEntry c volume o descend (keyOf p) out s =
      .ok (capped o.maxKeys out (reported (visitedAt c volume o t below p))) s' ∧ Alike t s' := by
  obtain ⟨s',hread,hs'⟩ := readVersion_alike (c := c) hdir hs (keyOf p)
  rw [walkEntry, visitedAt]
  by_cases hskip : (o.before (keyOf p) || o.outside (keyOf p)) = true
  · rw [if_pos hskip, if_pos hskip]
    exact adds_nil hs
  rw [if_neg hskip, if_neg hskip, bind_of_ok hread]
  cases hv : value (readVersion c volume (keyOf p) none false t) with
  | ok fi =>
    show ∃ s'', (pure (if o.rejects fi.name = true then out else out ++ [(fi.name,fi)]) :
        Fs Listing) s' = .ok (capped o.maxKeys out
        (reported (if o.rejects fi.name = true then [] else [(p,fi)]))) s'' ∧ Alike t s''
    by_cases hrej : o.rejects fi.name = true
    · rw [if_pos hrej, if_pos hrej]
      exact adds_nil hs'
    · rw [if_neg hrej, if_neg hrej, readVersion_named c volume _ t none false fi hv,
        ← o.capped_singleton out _ hfull]
      exact ⟨s',rfl,hs'⟩
  | error e =>
    cases e with
    | fileNotFound v k =>
      show ∃ s'', (if o.recursive = true then descend (keyOf p) out else pure out) s' =
        .ok (capped o.maxKeys out (reported (if o.recursive = true then below p else []))) s'' ∧
          Alike t s''
      by_cases hrec : o.recursive = true
      · rw [if_pos hrec, if_pos hrec]
        exact hdesc (look_of_fileNotFound hdir p hp hlook v k hv) out s' hs'
      · rw [if_neg hrec, if_neg hrec]
        exact adds_nil hs'
    | _ => exact adds_nil hs'

theorem walkEntries_adds (hdir : look t [volume] = some .dir)
    (descend : String → Listing → Fs Listing) (below : Path → List (Path × FileInfo)) (q : Path)
    (xs : List String) (hxs : ∀ x ∈ xs, look t (volume::(q ++ [x])) ≠ none ∧
      (∀ s ∈ q ++ [x], FileName s))
    (hdesc : ∀ x ∈ xs, look t (volume::(q ++ [x])) = some .dir →
      Adds o t (descend (keyOf (q ++ [x]))) (below (q ++ [x]))) :
    Adds o t (walkEntries c volume o descend (keyOf q) xs)
      (xs.flatMap (fun x => visitedAt c volume o t below (q ++ [x]))) := by
  induction xs with
  | nil => exact fun out s hs => adds_nil hs
  | cons x xs ih =>
    intro out s hs
    rw [walkEntries]
    cases hfull : o.full out with
    | true =>
      rw [o.capped_of_full out _ hfull]
      exact ⟨s,rfl,hs⟩
    | false =>
      have hx := hxs x List.mem_cons_self
      obtain ⟨s',hstep,hs'⟩ := walkEntry_adds (c := c) (o := o) hdir descend below (q ++ [x]) hx.2
        hx.1 (hdesc x List.mem_cons_self) out hfull s hs
      rw [keyOf_snoc] at hstep
      rw [if_neg Bool.false_ne_true, bind_of_ok hstep, List.flatMap_cons, reported_append,
        ← capped_append]
      exact ih (fun y hy => hxs y (.tail x hy)) (fun y hy => hdesc y (.tail x hy)) _ s' hs'

theorem walkDirLocalInner_adds (hdir : look t [volume] = some .dir) (hwell : WellNamed t)
    (fuel : ℕ) (q : Path) (hsub : look t (volume::q) = some .dir)
    (hfuel : Within t (fuel+q.length)) :
    Adds o t (walkDirLocalInner c volume o fuel (keyOf q)) (visited c volume o t fuel q) := by
  induction fuel generalizing q with
  | zero =>
    have hlen := hfuel (volume::q) (by simp [hsub])
    rw [List.length_cons] at hlen
    omega
  | succ fuel ih =>
    intro out s hs
    have hq : ∀ x ∈ q, FileName x := fun x hx =>
      hwell _ (by simp [hsub]) x (List.mem_cons_of_mem volume hx)
    obtain ⟨xs,s',hlist,hs',hsort⟩ := listDir_alike hdir hs q hq hsub
    rw [walkDirLocalInner, visited]
    cases hfull : o.full out with
    | true =>
      rw [o.capped_of_full out _ hfull]
      exact ⟨s,rfl,hs⟩
    | false =>
      rw [if_neg Bool.false_ne_true, bind_of_ok hlist, hsort]
      apply walkEntries_adds hdir _ _ q _ _ _ out s' hs'
      · intro x hx
        have hlook := (mem_children t (volume::q) x).mp hx
        exact ⟨hlook,fun s hs => hwell _ hlook s (List.mem_cons_of_mem volume hs)⟩
      · intro x hx hdir
        apply ih (q ++ [x]) hdir
        rwa [List.length_append, List.length_singleton, add_comm q.length, ← add_assoc]

/-- A walk of the whole volume reports what is visited, up to the cap. -/
theorem walkDir_eq (hdir : look t [volume] = some .dir) (hwell : WellNamed t) :
    ∃ fuel, Within t fuel ∧ value (walkDir c volume o "" t) =
      .ok (capped o.maxKeys [] (reported (visited c volume o t fuel []))) := by
  obtain ⟨s,hreq,hs⟩ := requireVol_alike hdir (s := t) (fun _ => rfl)
  have hwithin : Within t (depth s) := fun q hq => length_le_depth s q (by rwa [hs q])
  obtain ⟨s',hwalk,-⟩ := walkDirLocalInner_adds (c := c) (o := o) hdir hwell (depth s) [] hdir
    hwithin [] s hs
  refine ⟨depth s,hwithin,?_⟩
  have hbelow : walkBelow c volume o "" s = _ := hwalk
  rw [walkDir, bind_of_ok hreq, hbelow]
  rfl

end Spec

theorem startsWith_iff (s pre : String) : startsWith s pre = true ↔ pre.toList <+: s.toList := by
  rw [startsWith, List.isPrefixOf_iff_prefix]

theorem not_outside (o : WalkOptions) (q r : Path) (hq : ∀ s ∈ q, FileName s)
    (hr : ∀ s ∈ r, FileName s) (hq0 : q ≠ [])
    (h : startsWith (keyOf (q ++ r)) o.prefixFilter = true) : o.outside (keyOf q) = false := by
  have hor : startsWith (keyOf q) o.prefixFilter = true ∨
      startsWith o.prefixFilter (keyOf q ++ "/") = true := by
    by_cases hr0 : r = []
    · rw [hr0, List.append_nil] at h
      exact .inl h
    · rw [startsWith_iff, keyOf_append q r hq hr hq0 hr0, String.toList_append] at h
      rw [startsWith_iff, startsWith_iff]
      rcases List.prefix_or_prefix_of_prefix h (List.prefix_append _ _) with hp | hp
      · rw [String.toList_append] at hp ⊢
        rcases List.prefix_concat_iff.mp hp with heq | hp
        · exact .inr (heq ▸ List.prefix_rfl)
        · exact .inl hp
      · exact .inr hp
  rw [WalkOptions.outside]
  rcases hor with h | h <;> simp [h]

section Contents

variable (c : MetaCodec) (volume : String) (o : WalkOptions) (t : Disk)

def FoundAt (p : Path) (fi : FileInfo) : Prop :=
  value (readVersion c volume (keyOf p) none false t) = .ok fi

def NoRecord (p : Path) : Prop :=
  ∃ v k, value (readVersion c volume (keyOf p) none false t) = .error (.fileNotFound v k)

def Passes (p : Path) : Prop := o.before (keyOf p) = false ∧ o.outside (keyOf p) = false

/-- The way of the walk from a directory to an object below it. -/
structure Route (q r : Path) (fi : FileInfo) : Prop where
  passes : ∀ s, s <+: r → s ≠ [] → Passes o (q ++ s)
  enters : ∀ s, s <+: r → s ≠ [] → s ≠ r → NoRecord c volume t (q ++ s)
  found : FoundAt c volume t (q ++ r) fi
  kept : o.rejects (keyOf (q ++ r)) = false

variable {c volume o t}

theorem forall_prefix_cons (P : Path → Prop) (x : String) (r : Path) :
    (∀ s, s <+: x::r → s ≠ [] → P s) ↔ P [x] ∧ ∀ s, s <+: r → s ≠ [] → P (x::s) := by
  constructor
  · intro h
    exact ⟨h [x] (List.cons_prefix_cons.mpr ⟨rfl,List.nil_prefix⟩) (by simp),
      fun s hs _ => h (x::s) (List.cons_prefix_cons.mpr ⟨rfl,hs⟩) (by simp)⟩
  · rintro ⟨hone,hmore⟩ s hs hne
    rcases List.prefix_cons_iff.mp hs with he | ⟨s,rfl,hsr⟩
    · exact absurd he hne
    · by_cases hs0 : s = []
      · rwa [hs0]
      · exact hmore s hsr hs0

theorem route_single (q : Path) (x : String) (fi : FileInfo) :
    Route c volume o t q [x] fi ↔ Passes o (q ++ [x]) ∧ FoundAt c volume t (q ++ [x]) fi ∧
      o.rejects (keyOf (q ++ [x])) = false := by
  constructor
  · intro h
    exact ⟨h.passes [x] List.prefix_rfl (by simp),h.found,h.kept⟩
  · rintro ⟨hpass,hfound,hkept⟩
    refine ⟨?_,?_,hfound,hkept⟩
    · rw [forall_prefix_cons]
      exact ⟨hpass,fun s hs hne => absurd (List.prefix_nil.mp hs) hne⟩
    · rw [forall_prefix_cons]
      exact ⟨fun h => absurd rfl h,fun s hs hne => absurd (List.prefix_nil.mp hs) hne⟩

theorem route_cons (q : Path) (x : String) (r : Path) (hr : r ≠ []) (fi : FileInfo) :
    Route c volume o t q (x::r) fi ↔ Passes o (q ++ [x]) ∧ NoRecord c volume t (q ++ [x]) ∧
      Route c volume o t (q ++ [x]) r fi := by
  have hsnoc : ∀ s : Path, q ++ x::s = q ++ [x] ++ s := by simp
  constructor
  · rintro ⟨hpass,henter,hfound,hkept⟩
    rw [forall_prefix_cons] at hpass henter
    refine ⟨hpass.1,henter.1 fun he => hr (List.cons.inj he).2.symm,?_,?_,?_,?_⟩
    · exact fun s hs hne => hsnoc s ▸ hpass.2 s hs hne
    · exact fun s hs hne hx => hsnoc s ▸ henter.2 s hs hne (fun he => hx (List.cons.inj he).2)
    · exact hsnoc r ▸ hfound
    · exact hsnoc r ▸ hkept
  · rintro ⟨hpass,hno,hroute⟩
    refine ⟨?_,?_,hsnoc r ▸ hroute.found,hsnoc r ▸ hroute.kept⟩
    · rw [forall_prefix_cons]
      exact ⟨hpass,fun s hs hne => hsnoc s ▸ hroute.passes s hs hne⟩
    · rw [forall_prefix_cons]
      exact ⟨fun _ => hno,fun s hs hne hx =>
        hsnoc s ▸ hroute.enters s hs hne (fun he => hx (by rw [he]))⟩

theorem mem_visitedAt (hrec : o.recursive = true) (below : Path → List (Path × FileInfo))
    (p p' : Path) (fi : FileInfo) :
    (p',fi) ∈ visitedAt c volume o t below p ↔ Passes o p ∧
      (p' = p ∧ FoundAt c volume t p fi ∧ o.rejects (keyOf p) = false ∨
        NoRecord c volume t p ∧ (p',fi) ∈ below p) := by
  rw [visitedAt, Passes, FoundAt, NoRecord]
  by_cases hskip : (o.before (keyOf p) || o.outside (keyOf p)) = true
  · rw [if_pos hskip]
    grind
  · rw [if_neg hskip]
    rw [Bool.not_eq_true, Bool.or_eq_false_iff] at hskip
    cases hv : value (readVersion c volume (keyOf p) none false t) with
    | ok gi =>
      have hname := readVersion_named c volume _ t none false gi hv
      cases hrej : o.rejects (keyOf p) <;> grind
    | error e => cases e <;> simp [hskip, hrec]

theorem noRecord_iff (hdir : look t [volume] = some .dir) (p : Path) (hp : ∀ s ∈ p, FileName s)
    (hsub : look t (volume::p) = some .dir) :
    NoRecord c volume t p ↔ look t (volume::p ++ [metaFilename]) = none := by
  obtain ⟨t',hreq,-⟩ := requireVol_alike hdir (s := t) (fun _ => rfl)
  rw [NoRecord, readVersion_value c volume _ t ⟨(),t',hreq⟩, metaPath, filePath_keyOf volume p hp]
  constructor
  · rintro ⟨v,k,h⟩
    apply look_of_notFound
    cases hr : Lib.FileTree.readFile t (volume::p ++ [metaFilename]) with
    | ok bytes =>
      rw [hr] at h
      exact absurd h (found_versionFrom c volume _ bytes none false v k)
    | error e =>
      rw [hr] at h
      cases e <;> first | rfl | cases h
  · intro hnone
    have habove : ∀ q, q <+: volume::p ++ [metaFilename] → ¬ShowsFile t q := by
      rintro q hq ⟨b,hb⟩
      rcases List.prefix_concat_iff.mp hq with rfl | hq
      · rw [hnone] at hb
        cases hb
      · rw [prefix_shows_dir t _ q hsub hq] at hb
        cases hb
    exact ⟨_,_,by rw [readFile_notFound t _ hnone habove]; rfl⟩

theorem look_of_found (p : Path) (hp : ∀ s ∈ p, FileName s) (fi : FileInfo)
    (h : FoundAt c volume t p fi) : look t (volume::p) = some .dir := by
  obtain ⟨bytes,hread,-⟩ := readVersion_ok c volume (keyOf p) t none false fi h
  rw [readFile_eq_ok, metaPath, filePath_keyOf volume p hp] at hread
  exact look_above t (volume::p) [] metaFilename _ hread

/-- What is visited below a directory is what has a route from it. -/
theorem mem_visited (hrec : o.recursive = true) (hwell : WellNamed t) (fuel : ℕ) (q : Path)
    (hq : ∀ s ∈ q, FileName s) (hfuel : Within t (fuel+q.length)) (p : Path) (fi : FileInfo) :
    (p,fi) ∈ visited c volume o t fuel q ↔
      ∃ r, p = q ++ r ∧ r ≠ [] ∧ (∀ s ∈ r, FileName s) ∧ Route c volume o t q r fi := by
  induction fuel generalizing q with
  | zero =>
    constructor
    · intro h
      cases h
    · rintro ⟨r,-,hr,hnames,hroute⟩
      have hnames' : ∀ s ∈ q ++ r, FileName s := fun s hs =>
        (List.mem_append.mp hs).elim (hq s) (hnames s)
      have hlen := hfuel _ (by rw [look_of_found _ hnames' fi hroute.found]; simp)
      have hpos := List.length_pos_iff.mpr hr
      rw [List.length_cons, List.length_append] at hlen
      omega
  | succ fuel ih =>
    have hstep : ∀ x, FileName x → ∀ s ∈ q ++ [x], FileName s := fun x hx s hs =>
      (List.mem_append.mp hs).elim (hq s) (fun h => List.mem_singleton.mp h ▸ hx)
    have hlen : ∀ x, Within t (fuel+(q ++ [x]).length) := by
      intro x
      rwa [List.length_append, List.length_singleton, add_comm q.length, ← add_assoc]
    rw [visited, List.mem_flatMap]
    constructor
    · rintro ⟨x,hx,hmem⟩
      have hlook := (mem_children t (volume::q) x).mp hx
      have hname : FileName x := hwell _ hlook x (by simp)
      obtain ⟨hpass,⟨rfl,hfound,hkept⟩ | ⟨hno,hbelow⟩⟩ := (mem_visitedAt hrec _ _ _ _).mp hmem
      · exact ⟨[x],rfl,by simp,by simpa using hname,(route_single q x fi).mpr ⟨hpass,hfound,hkept⟩⟩
      · obtain ⟨r,rfl,hr,hnames,hroute⟩ := (ih _ (hstep x hname) (hlen x)).mp hbelow
        exact ⟨x::r,by simp,by simp,List.forall_mem_cons.mpr ⟨hname,hnames⟩,
          (route_cons q x r hr fi).mpr ⟨hpass,hno,hroute⟩⟩
    · rintro ⟨r,rfl,hr,hnames,hroute⟩
      cases r with
      | nil => exact absurd rfl hr
      | cons x r =>
        rw [List.forall_mem_cons] at hnames
        have hall : ∀ s ∈ q ++ x::r, FileName s := fun s hs =>
          (List.mem_append.mp hs).elim (hq s) (List.forall_mem_cons.mpr hnames s)
        have hdir := look_of_found _ hall fi hroute.found
        refine ⟨x,(mem_children t (volume::q) x).mpr fun hnone => ?_,
          (mem_visitedAt hrec _ _ _ _).mpr ?_⟩
        · have hbelow := look_below_none t _ hnone r
          simp only [List.cons_append, List.append_assoc, List.nil_append] at hbelow
          rw [hbelow] at hdir
          cases hdir
        · by_cases hr0 : r = []
          · subst hr0
            obtain ⟨hpass,hfound,hkept⟩ := (route_single q x fi).mp hroute
            exact ⟨hpass,.inl ⟨rfl,hfound,hkept⟩⟩
          · obtain ⟨hpass,hno,hroute⟩ := (route_cons q x r hr0 fi).mp hroute
            refine ⟨hpass,.inr ⟨hno,?_⟩⟩
            rw [ih _ (hstep x hnames.1) (hlen x)]
            exact ⟨r,by simp,hr0,hnames.2,hroute⟩

theorem prefix_of_mem_visitedAt (hrec : o.recursive = true)
    (below : Path → List (Path × FileInfo)) (hbelow : ∀ q p fi, (p,fi) ∈ below q → q <+: p)
    (q p : Path) (fi : FileInfo) (h : (p,fi) ∈ visitedAt c volume o t below q) : q <+: p := by
  obtain ⟨-,⟨rfl,-⟩ | ⟨-,hmem⟩⟩ := (mem_visitedAt hrec _ _ _ _).mp h
  · exact List.prefix_rfl
  · exact hbelow q p fi hmem

theorem prefix_of_mem_visited (hrec : o.recursive = true) (fuel : ℕ) (q p : Path) (fi : FileInfo)
    (h : (p,fi) ∈ visited c volume o t fuel q) : q <+: p := by
  induction fuel generalizing q p fi with
  | zero => cases h
  | succ fuel ih =>
    rw [visited, List.mem_flatMap] at h
    obtain ⟨x,-,hmem⟩ := h
    exact (List.prefix_append q [x]).trans (prefix_of_mem_visitedAt hrec _ ih _ p fi hmem)

theorem visited_sorted (hrec : o.recursive = true) (fuel : ℕ) (q : Path) :
    (visited c volume o t fuel q).Pairwise (fun a b => a.1 < b.1) := by
  induction fuel generalizing q with
  | zero => exact List.Pairwise.nil
  | succ fuel ih =>
    rw [visited, List.pairwise_flatMap]
    constructor
    · intro x _
      rw [visitedAt]
      split_ifs
      · exact List.Pairwise.nil
      · split
        · split_ifs
          · exact List.Pairwise.nil
          · exact List.pairwise_singleton _ _
        · exact ih _
        · exact List.Pairwise.nil
    · apply (children_sorted t (volume::q)).imp
      rintro x y hxy ⟨p,fi⟩ hp ⟨p',gi⟩ hp'
      obtain ⟨r,rfl⟩ :=
        prefix_of_mem_visitedAt hrec _ (prefix_of_mem_visited hrec fuel) _ p fi hp
      obtain ⟨r',rfl⟩ :=
        prefix_of_mem_visitedAt hrec _ (prefix_of_mem_visited hrec fuel) _ p' gi hp'
      rw [List.append_assoc, List.append_assoc]
      exact List.append_left_lt (List.Lex.rel hxy)

end Contents

end Openlake.LocalFs
