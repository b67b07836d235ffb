import Mathlib

/-!
# A file tree and its system calls

A node is a file or a directory of named nodes, so that every entry has its
directories above it by construction. Each call is a function on the root node
that returns the new tree or the error number of the call. `look` is what a
path shows; the lemma of each call says what `look` is afterwards.

What a call returns is decided by what the paths show. Every path that shows
something is in a finite list, so what holds of all paths of a given tree can be
decided.
-/

set_option autoImplicit false

namespace Lib.FileTree

abbrev Path := List String

inductive Node (β : Type) where
  | file (content : β)
  | dir (entries : List (String × Node β))

inductive Kind (β : Type) where
  | file (content : β)
  | dir
  deriving DecidableEq

inductive Errno where
  | notFound | notADirectory | isADirectory | directoryNotEmpty | alreadyExists | invalidInput
  deriving DecidableEq, Repr

variable {β : Type}

def lookup (x : String) : List (String × Node β) → Option (Node β)
  | [] => none
  | (y,c)::es => if y = x then some c else lookup x es

def erase (x : String) (es : List (String × Node β)) : List (String × Node β) :=
  es.filter (fun e => e.1 ≠ x)

def insert (x : String) (c : Node β) (es : List (String × Node β)) : List (String × Node β) :=
  (x,c)::erase x es

theorem lookup_erase (x y : String) (es : List (String × Node β)) :
    lookup y (erase x es) = if x = y then none else lookup y es := by
  induction es with
  | nil => simp [erase, lookup]
  | cons e es ih =>
    obtain ⟨z,c⟩ := e
    rw [erase] at ih ⊢
    by_cases hz : z = x
    · subst hz
      by_cases hy : z = y
      · simpa [List.filter_cons, hy] using ih
      · simpa [List.filter_cons, lookup, hy] using ih
    · by_cases hy : z = y
      · subst hy
        simp [lookup, hz, Ne.symm hz]
      · simpa [List.filter_cons, lookup, hz, hy] using ih

theorem lookup_insert (x y : String) (c : Node β) (es : List (String × Node β)) :
    lookup y (insert x c es) = if x = y then some c else lookup y es := by
  rw [insert, lookup]
  by_cases h : x = y
  · simp [h]
  · simp [h, lookup_erase]

def get : Node β → Path → Option (Node β)
  | t,[] => some t
  | .file _,_::_ => none
  | .dir es,x::p => (lookup x es).bind (fun c => get c p)
termination_by structural _ p => p

def names (es : List (String × Node β)) : List String := (es.map Prod.fst).dedup

mutual

/-- How long a path in the tree can be. -/
def depth : Node β → ℕ
  | .file _ => 0
  | .dir es => depths es+1

def depths : List (String × Node β) → ℕ
  | [] => 0
  | (_,c)::es => max (depth c) (depths es)

end

def kind : Node β → Kind β
  | .file b => .file b
  | .dir _ => .dir

def look (t : Node β) (p : Path) : Option (Kind β) := (get t p).map kind

/-- The error number for a path that shows nothing. -/
def missing : Node β → Path → Errno
  | _,[] => .notFound
  | .file _,_::_ => .notADirectory
  | .dir es,x::p =>
    match lookup x es with
    | none => .notFound
    | some c => missing c p
termination_by structural _ p => p

def stat (t : Node β) (p : Path) : Except Errno (Node β) :=
  match get t p with
  | some c => .ok c
  | none => .error (missing t p)

def readFile (t : Node β) (p : Path) : Except Errno β :=
  match stat t p with
  | .ok (.file b) => .ok b
  | .ok (.dir _) => .error .isADirectory
  | .error e => .error e

def chain (c : Node β) : Path → Node β
  | [] => c
  | x::p => .dir [(x,chain c p)]

def createDirAll : Node β → Path → Except Errno (Node β)
  | .file _,[] => .error .alreadyExists
  | .file _,_::_ => .error .notADirectory
  | .dir es,[] => .ok (.dir es)
  | .dir es,x::p =>
    match lookup x es with
    | none => .ok (.dir (insert x (chain (.dir []) p) es))
    | some c => (createDirAll c p).map (fun c => .dir (insert x c es))
termination_by structural _ p => p

/-- Puts a node in place of what the path shows, in a directory that exists. -/
def place (c : Node β) : Node β → Path → Except Errno (Node β)
  | _,[] => .ok c
  | .file _,_::_ => .error .notADirectory
  | .dir es,[x] => .ok (.dir (insert x c es))
  | .dir es,x::p =>
    match lookup x es with
    | none => .error .notFound
    | some d => (place c d p).map (fun d => .dir (insert x d es))
termination_by structural _ p => p

/-- Creates one directory in a directory that exists. -/
def createDir (t : Node β) (p : Path) : Except Errno (Node β) :=
  match get t p with
  | some _ => .error .alreadyExists
  | none => place (.dir []) t p

/-- Creates or truncates a file and writes it. -/
def writeFile (b : β) (t : Node β) (p : Path) : Except Errno (Node β) :=
  match get t p with
  | some (.dir _) => .error .isADirectory
  | _ => place (.file b) t p

def prune : Node β → Path → Node β
  | t,[] => t
  | .file b,_::_ => .file b
  | .dir es,[x] => .dir (erase x es)
  | .dir es,x::p =>
    match lookup x es with
    | none => .dir es
    | some c => .dir (insert x (prune c p) es)
termination_by structural _ p => p

def removeFile (t : Node β) (p : Path) : Except Errno (Node β) :=
  match stat t p with
  | .error e => .error e
  | .ok (.dir _) => .error .isADirectory
  | .ok (.file _) => if p = [] then .error .invalidInput else .ok (prune t p)

def removeDir (t : Node β) (p : Path) : Except Errno (Node β) :=
  match stat t p with
  | .error e => .error e
  | .ok (.file _) => .error .notADirectory
  | .ok (.dir (_::_)) => .error .directoryNotEmpty
  | .ok (.dir []) => if p = [] then .error .invalidInput else .ok (prune t p)

/-- What a rename finds at its target: nothing to replace, a file under a file,
or an empty directory under a directory. -/
def replaceable : Node β → Option (Node β) → Except Errno Unit
  | _,none => .ok ()
  | .file _,some (.file _) => .ok ()
  | .file _,some (.dir _) => .error .isADirectory
  | .dir _,some (.file _) => .error .notADirectory
  | .dir _,some (.dir []) => .ok ()
  | .dir _,some (.dir (_::_)) => .error .directoryNotEmpty

def rename (t : Node β) (src dst : Path) : Except Errno (Node β) :=
  match stat t src with
  | .error e => .error e
  | .ok c =>
    if src = dst then .ok t
    else if src <+: dst then .error .invalidInput
    else
      match replaceable c (get t dst) with
      | .error e => .error e
      | .ok _ => place c (prune t src) dst

variable (t : Node β) (es : List (String × Node β)) (p q : Path)

theorem get_append : get t (p ++ q) = (get t p).bind (get · q) := by
  induction p generalizing t with
  | nil => rfl
  | cons x p ih =>
    cases t with
    | file b => rfl
    | dir es =>
      show (lookup x es).bind (fun c => get c (p ++ q)) = ((lookup x es).bind (get · p)).bind (get · q)
      cases lookup x es with
      | none => rfl
      | some c => exact ih c

theorem look_append : look t (p ++ q) = (get t p).bind (look · q) := by
  rw [look, get_append]
  cases get t p <;> rfl

@[simp] theorem look_nil : look t [] = some (kind t) := rfl

@[simp] theorem look_file_cons (b : β) (x : String) (p : Path) : look (.file b) (x::p) = none := rfl

theorem look_dir_cons (x : String) (p : Path) :
    look (.dir es) (x::p) = (lookup x es).bind (look · p) := by
  show ((lookup x es).bind (fun c => get c p)).map kind = _
  cases lookup x es <;> rfl

theorem look_insert (x y : String) (c : Node β) (q : Path) :
    look (.dir (insert x c es)) (y::q) = if x = y then look c q else look (.dir es) (y::q) := by
  rw [look_dir_cons, look_dir_cons, lookup_insert]
  split_ifs <;> rfl

theorem look_erase (x y : String) (q : Path) :
    look (.dir (erase x es)) (y::q) = if x = y then none else look (.dir es) (y::q) := by
  rw [look_dir_cons, look_dir_cons, lookup_erase]
  split_ifs <;> rfl

theorem look_below_file (p : Path) (b : β) (h : look t p = some (.file b)) (x : String)
    (q : Path) : look t (p ++ x::q) = none := by
  rw [look_append]
  rw [look] at h
  cases hg : get t p with
  | none => rfl
  | some c =>
    rw [hg] at h
    cases c with
    | file b => rfl
    | dir es => cases h

theorem look_below_none (p : Path) (h : look t p = none) (q : Path) :
    look t (p ++ q) = none := by
  rw [look_append]
  rw [look, Option.map_eq_none_iff] at h
  rw [h]
  rfl

theorem look_above (x : String) (k : Kind β)
    (h : look t (p ++ x::q) = some k) : look t p = some .dir := by
  cases hp : look t p with
  | none => rw [look_below_none t p hp] at h; cases h
  | some k =>
    cases k with
    | file b => rw [look_below_file t p b hp] at h; cases h
    | dir => rfl

/-- Neither path is at or below the other. -/
def Apart (p q : Path) : Prop := ¬p <+: q ∧ ¬q <+: p

theorem apart_cons {x y : String} (h : x ≠ y) (p q : Path) : Apart (x::p) (y::q) :=
  ⟨fun hp => h (List.cons_prefix_cons.mp hp).1,fun hp => h (List.cons_prefix_cons.mp hp).1.symm⟩

theorem Apart.symm {p q : Path} (h : Apart p q) : Apart q p := ⟨h.2,h.1⟩

theorem Apart.append_left {p q : Path} (h : Apart p q) (r : Path) : Apart (p ++ r) q := by
  refine ⟨fun hp => h.1 ((List.prefix_append p r).trans hp),fun hq => ?_⟩
  exact (List.prefix_or_prefix_of_prefix (List.prefix_append p r) hq).elim h.1 h.2

theorem Apart.append {p q : Path} (h : Apart p q) (r s : Path) : Apart (p ++ r) (q ++ s) :=
  ((h.append_left r).symm.append_left s).symm

theorem Apart.of_prefix {p q r : Path} (h : Apart p q) (hr : q <+: r) : Apart p r := by
  obtain ⟨s,rfl⟩ := hr
  exact (h.symm.append_left s).symm

theorem look_prune :
    look (prune t p) q = if p ≠ [] ∧ p <+: q then none else look t q := by
  induction p generalizing t q with
  | nil => simp [prune]
  | cons x p ih =>
    cases t with
    | file b => cases q <;> simp [prune]
    | dir es =>
      cases q with
      | nil =>
        have hk : kind (prune (.dir es) (x::p)) = .dir := by
          cases p with
          | nil => rfl
          | cons y p => simp only [prune]; split <;> rfl
        rw [look_nil, hk]
        simp [kind]
      | cons y q =>
        cases p with
        | nil => simp [prune, look_erase]
        | cons z p =>
          simp only [prune]
          cases hl : lookup x es with
          | none =>
            by_cases hx : x = y
            · subst hx
              simp [look_dir_cons, hl]
            · simp [hx]
          | some c =>
            rw [look_insert, ih c q]
            by_cases hx : x = y
            · subst hx
              simp [look_dir_cons, hl]
            · simp [hx]

theorem look_place (c : Node β) (t t' : Node β) (p : Path) (h : place c t p = .ok t') (q : Path) :
    look t' q = if p <+: q then look c (q.drop p.length) else look t q := by
  induction p generalizing t t' q with
  | nil =>
    cases t <;> · cases h; simp
  | cons x p ih =>
    cases t with
    | file b => cases h
    | dir es =>
      cases p with
      | nil =>
        cases h
        cases q with
        | nil => simp [kind]
        | cons y q =>
          rw [look_insert]
          by_cases hx : x = y <;> simp [hx]
      | cons z p =>
        simp only [place] at h
        cases hl : lookup x es with
        | none => simp [hl] at h
        | some d =>
          simp only [hl] at h
          cases hp : place c d (z::p) with
          | error e => simp [hp, Except.map] at h
          | ok d' =>
            simp only [hp, Except.map] at h
            cases h
            cases q with
            | nil => simp [kind]
            | cons y q =>
              rw [look_insert, ih d d' hp q, look_dir_cons]
              by_cases hx : x = y
              · subst hx
                simp [hl]
              · simp [hx]

theorem look_chain :
    look (chain (.dir []) p : Node β) q = if q <+: p then some .dir else none := by
  induction p generalizing q with
  | nil => cases q <;> simp [chain, look_dir_cons, lookup, kind]
  | cons x p ih =>
    cases q with
    | nil => simp [chain, kind]
    | cons y q =>
      simp only [chain, look_dir_cons, lookup]
      by_cases hx : x = y
      · subst hx
        simp [ih]
      · simp [hx, Ne.symm hx]

theorem look_createDirAll (t t' : Node β) (p : Path) (h : createDirAll t p = .ok t') (q : Path) :
    look t' q = (if q <+: p then some .dir else look t q) ∧
    (q <+: p → look t q = none ∨ look t q = some .dir) := by
  induction p generalizing t t' q with
  | nil =>
    cases t with
    | file b => cases h
    | dir es =>
      cases h
      cases q <;> simp [kind]
  | cons x p ih =>
    cases t with
    | file b => cases h
    | dir es =>
      simp only [createDirAll] at h
      cases hl : lookup x es with
      | none =>
        simp only [hl] at h
        cases h
        cases q with
        | nil => simp [kind]
        | cons y q =>
          rw [look_insert, look_dir_cons, look_chain]
          by_cases hx : x = y
          · subst hx
            simp [hl]
          · simp [hx, Ne.symm hx]
      | some c =>
        simp only [hl] at h
        cases hp : createDirAll c p with
        | error e => simp [hp, Except.map] at h
        | ok c' =>
          simp only [hp, Except.map] at h
          cases h
          cases q with
          | nil => simp [kind]
          | cons y q =>
            rw [look_insert, look_dir_cons]
            by_cases hx : x = y
            · subst hx
              simpa [hl] using ih c c' hp q
            · simp [hx, Ne.symm hx]

theorem readFile_eq_ok (p : Path) (b : β) :
    readFile t p = .ok b ↔ look t p = some (.file b) := by
  rw [readFile, stat, look]
  cases get t p with
  | none => simp
  | some c => cases c <;> simp [kind]

/-- A rename moves the subtree; what it replaces had nothing below it. -/
theorem look_rename (t t' : Node β) (src dst : Path) (h : rename t src dst = .ok t') (q : Path) :
    look t' q =
      if dst <+: q then look t (src ++ q.drop dst.length)
      else if src <+: q ∧ src ≠ dst then none else look t q := by
  rw [rename, stat] at h
  cases hs : get t src with
  | none => simp [hs] at h
  | some c =>
    simp only [hs] at h
    split_ifs at h with heq hpre
    · subst heq
      cases h
      by_cases hq : src <+: q
      · obtain ⟨r,rfl⟩ := hq
        simp
      · simp [hq]
    · cases hr : replaceable c (get t dst) with
      | error e => simp [hr] at h
      | ok u =>
        simp only [hr] at h
        rw [look_place c _ t' dst h, look_prune]
        have hsrc : src ≠ [] := by
          rintro rfl
          exact hpre List.nil_prefix
        by_cases hq : dst <+: q
        · obtain ⟨r,rfl⟩ := hq
          simp [look_append t src, hs]
        · simp [hq, hsrc, heq]

theorem look_writeFile (b : β) (t t' : Node β) (p : Path) (h : writeFile b t p = .ok t')
    (q : Path) : look t' q = if q = p then some (.file b) else look t q := by
  have hplace : place (.file b) t p = .ok t' ∧ look t p ≠ some .dir := by
    rw [writeFile] at h
    rw [look]
    cases hg : get t p with
    | none => simpa [hg] using h
    | some c => cases c <;> simp_all [kind]
  rw [look_place _ t t' p hplace.1]
  by_cases hq : p <+: q
  · obtain ⟨r,rfl⟩ := hq
    cases r with
    | nil => simp [kind]
    | cons x r =>
      have hbelow : look t (p ++ x::r) = none := by
        cases hk : look t (p ++ x::r) with
        | none => rfl
        | some k => exact absurd (look_above t p r x k hk) hplace.2
      simp [hbelow]
  · have hne : q ≠ p := fun he => hq (he ▸ List.prefix_rfl)
    simp [hq, hne]

theorem look_prune_leaf (p : Path) (hp : p ≠ [])
    (hleaf : ∀ x r, look t (p ++ x::r) = none) (q : Path) :
    look (prune t p) q = if q = p then none else look t q := by
  rw [look_prune]
  by_cases hq : p <+: q
  · obtain ⟨r,rfl⟩ := hq
    cases r with
    | nil => simp [hp]
    | cons x r => simp [hleaf]
  · have hne : q ≠ p := fun he => hq (he ▸ List.prefix_rfl)
    simp [hq, hne]

theorem look_removeFile (t t' : Node β) (p : Path) (h : removeFile t p = .ok t') :
    (∃ b, look t p = some (.file b)) ∧
    ∀ q, look t' q = if q = p then none else look t q := by
  rw [removeFile, stat] at h
  cases hg : get t p with
  | none => simp [hg] at h
  | some c =>
    cases c with
    | dir es => simp [hg] at h
    | file b =>
      simp only [hg] at h
      split_ifs at h with hp
      cases h
      have hfile : look t p = some (.file b) := by simp [look, hg, kind]
      exact ⟨⟨b,hfile⟩,look_prune_leaf t p hp (look_below_file t p b hfile)⟩

theorem look_removeDir (t t' : Node β) (p : Path) (h : removeDir t p = .ok t') :
    look t p = some .dir ∧ (∀ x r, look t (p ++ x::r) = none) ∧
    ∀ q, look t' q = if q = p then none else look t q := by
  rw [removeDir, stat] at h
  cases hg : get t p with
  | none => simp [hg] at h
  | some c =>
    cases c with
    | file b => simp [hg] at h
    | dir es =>
      cases es with
      | cons e es => simp [hg] at h
      | nil =>
        simp only [hg] at h
        split_ifs at h with hp
        cases h
        have hleaf : ∀ x r, look t (p ++ x::r) = none := by
          intro x r
          rw [look_append, hg]
          rfl
        exact ⟨by simp [look, hg, kind],hleaf,look_prune_leaf t p hp hleaf⟩

variable {β : Type}

def ShowsFile (t : Node β) (p : Path) : Prop := ∃ b, look t p = some (.file b)

variable (t : Node β) (p : Path)

theorem get_of_file (b : β) (h : look t p = some (.file b)) :
    get t p = some (.file b) := by
  rw [look, Option.map_eq_some_iff] at h
  obtain ⟨c,hc,hk⟩ := h
  cases c with
  | file b' => rw [hc]; cases hk; rfl
  | dir es => cases hk

theorem get_of_dir (h : look t p = some .dir) :
    ∃ es, get t p = some (.dir es) := by
  rw [look, Option.map_eq_some_iff] at h
  obtain ⟨c,hc,hk⟩ := h
  cases c with
  | file b => cases hk
  | dir es => exact ⟨es,hc⟩

theorem get_of_none (h : look t p = none) : get t p = none := by
  rwa [look, Option.map_eq_none_iff] at h

variable (es : List (String × Node β)) (x : String)

theorem exists_file_prefix_cons (p : Path) :
    (∃ q, q <+: x::p ∧ ShowsFile (.dir es) q) ↔
      ∃ q, q <+: p ∧ ∃ b, look (.dir es) (x::q) = some (.file b) := by
  constructor
  · rintro ⟨q,hq,b,hb⟩
    cases q with
    | nil => cases hb
    | cons y q =>
      obtain ⟨rfl,hqp⟩ := List.cons_prefix_cons.mp hq
      exact ⟨q,hqp,b,hb⟩
  · rintro ⟨q,hq,b,hb⟩
    exact ⟨x::q,List.cons_prefix_cons.mpr ⟨rfl,hq⟩,b,hb⟩

open Classical in
theorem missing_eq (t : Node β) (p : Path) (h : look t p = none) :
    missing t p = if ∃ q, q <+: p ∧ ShowsFile t q then .notADirectory else .notFound := by
  induction p generalizing t with
  | nil => cases h
  | cons x p ih =>
    cases t with
    | file b => rw [if_pos ⟨[],List.nil_prefix,b,rfl⟩, missing]
    | dir es =>
      rw [exists_file_prefix_cons, missing]
      cases hl : lookup x es with
      | none => simp [look_dir_cons, hl]
      | some c =>
        have hc : look c p = none := by simpa [look_dir_cons, hl] using h
        simp only [look_dir_cons, hl, Option.bind_some]
        exact ih c hc

open Classical in
/-- A read is decided by what the path shows and by the files above it. -/
theorem readFile_eq (t : Node β) (p : Path) :
    readFile t p =
      match look t p with
      | some (.file b) => .ok b
      | some .dir => .error .isADirectory
      | none => .error (if ∃ q, q <+: p ∧ ShowsFile t q then .notADirectory else .notFound) := by
  rw [readFile, stat]
  cases hk : look t p with
  | none => rw [get_of_none t p hk, missing_eq t p hk]
  | some k =>
    cases k with
    | file b => rw [get_of_file t p b hk]
    | dir =>
      obtain ⟨es,hes⟩ := get_of_dir t p hk
      rw [hes]

open Classical in
theorem readFile_congr (t t' : Node β) (p : Path) (h : look t' p = look t p)
    (hfile : ∀ q, q <+: p → (ShowsFile t' q ↔ ShowsFile t q)) : readFile t' p = readFile t p := by
  have hex : (∃ q, q <+: p ∧ ShowsFile t' q) ↔ ∃ q, q <+: p ∧ ShowsFile t q :=
    exists_congr fun q => and_congr_right (hfile q)
  rw [readFile_eq, readFile_eq, h]
  cases look t p with
  | none => exact congrArg Except.error (if_congr hex rfl rfl)
  | some k => cases k <;> rfl

theorem readFile_notFound (h : look t p = none)
    (hfile : ∀ q, q <+: p → ¬ShowsFile t q) : readFile t p = .error .notFound := by
  have hex : ¬∃ q, q <+: p ∧ ShowsFile t q := fun ⟨q,hq,hs⟩ => hfile q hq hs
  rw [readFile_eq, h]
  simp only [hex, if_false]

theorem look_of_notFound (h : readFile t p = .error .notFound) :
    look t p = none := by
  rw [readFile_eq] at h
  cases hk : look t p with
  | none => rfl
  | some k => cases k <;> simp [hk] at h

theorem stat_notFound (h : look t p = none)
    (hfile : ∀ q, q <+: p → ¬ShowsFile t q) : stat t p = .error .notFound := by
  have hex : ¬∃ q, q <+: p ∧ ShowsFile t q := fun ⟨q,hq,hs⟩ => hfile q hq hs
  rw [stat, get_of_none t p h, missing_eq t p h, if_neg hex]

theorem stat_child :
    stat (.dir es) [x] =
      match lookup x es with
      | none => .error .notFound
      | some c => .ok c := by
  have hget : get (.dir es) [x] = lookup x es := by
    show (lookup x es).bind (fun c => get c []) = lookup x es
    cases lookup x es <;> rfl
  rw [stat, hget, missing]
  cases lookup x es <;> rfl

theorem createDirAll_child :
    createDirAll (.dir es) [x] =
      match lookup x es with
      | none => .ok (.dir (insert x (.dir []) es))
      | some (.file _) => .error .alreadyExists
      | some (.dir ds) => .ok (.dir (insert x (.dir ds) es)) := by
  rw [createDirAll]
  cases lookup x es with
  | none => rfl
  | some c => cases c <;> rfl

theorem prefix_shows_dir (p q : Path) (h : look t p = some .dir) (hq : q <+: p) :
    look t q = some .dir := by
  obtain ⟨r,rfl⟩ := hq
  cases r with
  | nil => simpa using h
  | cons x r => exact look_above t q r x _ h

theorem place_progress (c t : Node β) (p : Path) (x : String) (h : look t p = some .dir) :
    ∃ t', place c t (p ++ [x]) = .ok t' := by
  induction p generalizing t with
  | nil =>
    cases t with
    | file b => cases h
    | dir es => exact ⟨_,rfl⟩
  | cons y p ih =>
    cases t with
    | file b => cases h
    | dir es =>
      rw [look_dir_cons] at h
      cases hl : lookup y es with
      | none => simp [hl] at h
      | some d =>
        obtain ⟨d',hd⟩ := ih d (by simpa [hl] using h)
        cases hp : p ++ [x] with
        | nil => simp at hp
        | cons z r =>
          rw [hp] at hd
          exact ⟨_,by rw [List.cons_append, hp, place]; simp only [hl, hd]; rfl; simp⟩

/-- No file is in the way down to the path. -/
def Passable (t : Node β) (p : Path) : Prop :=
  ∀ q, q <+: p → look t q = none ∨ look t q = some .dir

theorem passable_of_dir (h : look t p = some .dir) : Passable t p :=
  fun q hq => .inr (prefix_shows_dir t p q h hq)

theorem Passable.of_prefix {t : Node β} {p q : Path} (h : Passable t p) (hq : q <+: p) :
    Passable t q :=
  fun r hr => h r (hr.trans hq)

theorem createDirAll_progress (h : Passable t p) :
    ∃ t', createDirAll t p = .ok t' := by
  induction p generalizing t with
  | nil =>
    cases t with
    | file b => simpa [look, get, kind] using h [] List.prefix_rfl
    | dir es => exact ⟨_,rfl⟩
  | cons y p ih =>
    cases t with
    | file b => simpa [look, get, kind] using h [] List.nil_prefix
    | dir es =>
      cases hl : lookup y es with
      | none => exact ⟨_,by rw [createDirAll]; simp only [hl]; rfl⟩
      | some d =>
        have hd : Passable d p := by
          intro q hq
          have := h (y::q) (List.cons_prefix_cons.mpr ⟨rfl,hq⟩)
          rwa [look_dir_cons, hl] at this
        obtain ⟨d',hd'⟩ := ih d hd
        exact ⟨_,by rw [createDirAll]; simp only [hl, hd']; rfl⟩

/-- A file can take the place of a file or of nothing in a directory. -/
theorem rename_progress (src p : Path) (y : String) (b : β)
    (hp : look t p = some .dir) (hsrc : look t src = some (.file b))
    (hdst : look t (p ++ [y]) ≠ some .dir) : ∃ t', rename t src (p ++ [y]) = .ok t' := by
  rw [rename, stat, get_of_file t _ b hsrc]
  by_cases hne : src = p ++ [y]
  · exact ⟨t,by simp only [hne, if_true]⟩
  have hup : ¬src <+: p := by
    intro h
    have := prefix_shows_dir t p src hp h
    rw [hsrc] at this
    cases this
  have hpre : ¬src <+: p ++ [y] := by
    rw [List.prefix_concat_iff]
    rintro (h | h)
    · exact hne h
    · exact hup h
  have hrep : replaceable (.file b) (get t (p ++ [y])) = .ok () := by
    rw [look] at hdst
    cases hg : get t (p ++ [y]) with
    | none => rfl
    | some c =>
      cases c with
      | file b' => rfl
      | dir es => exact absurd (by rw [hg]; rfl) hdst
  have hstill : look (prune t src) p = some .dir := by
    rw [look_prune, if_neg, hp]
    exact fun h => hup h.2
  obtain ⟨t',ht'⟩ := place_progress (.file b) (prune t src) p y hstill
  exact ⟨t',by simp only [hne, hpre, if_false, hrep, ht']⟩

theorem look_below_nondir (h : look t p ≠ some .dir) (x : String)
    (r : Path) : look t (p ++ x::r) = none := by
  cases hk : look t (p ++ x::r) with
  | none => rfl
  | some k => exact absurd (look_above t p r x k hk) h

theorem look_rename_file (t t' : Node β) (src dst : Path) (h : rename t src dst = .ok t') (b : β)
    (hsrc : look t src = some (.file b)) (hdst : look t dst ≠ some .dir) (q : Path) :
    look t' q = if q = dst then some (.file b) else if q = src then none else look t q := by
  rw [look_rename t t' src dst h]
  by_cases hd : dst <+: q
  · obtain ⟨r,rfl⟩ := hd
    rw [if_pos (List.prefix_append _ _), List.drop_left]
    cases r with
    | nil => simp [hsrc]
    | cons x r =>
      rw [look_below_file t src b hsrc, look_below_nondir t dst hdst]
      simp
  · have hq : q ≠ dst := fun he => hd (he ▸ List.prefix_rfl)
    rw [if_neg hd, if_neg hq]
    by_cases hs : src <+: q
    · obtain ⟨r,rfl⟩ := hs
      cases r with
      | nil =>
        rw [List.append_nil] at hq ⊢
        simp [hq]
      | cons x r => simp [look_below_file t src b hsrc]
    · have hqs : q ≠ src := fun he => hs (he ▸ List.prefix_rfl)
      simp [hs, hqs]

theorem rename_notFound (src dst : Path) (h : look t src = none)
    (hfile : ∀ q, q <+: src → ¬ShowsFile t q) : rename t src dst = .error .notFound := by
  rw [rename, stat_notFound t src h hfile]

theorem removeFile_progress (b : β) (hp : p ≠ [])
    (h : look t p = some (.file b)) : ∃ t', removeFile t p = .ok t' := by
  rw [removeFile, stat, get_of_file t p b h]
  exact ⟨_,if_neg hp⟩

theorem lookup_isSome (es : List (String × Node β)) :
    (lookup x es).isSome ↔ x ∈ names es := by
  rw [names, List.mem_dedup]
  induction es with
  | nil => simp [lookup]
  | cons e es ih =>
    obtain ⟨y,c⟩ := e
    rw [lookup]
    by_cases h : y = x
    · simp [h]
    · simp [h, ih, Ne.symm h]

/-- The names of a directory are the entries its path shows. -/
theorem mem_names (h : get t p = some (.dir es)) (x : String)
    : x ∈ names es ↔ look t (p ++ [x]) ≠ none := by
  rw [← lookup_isSome, look_append, h, Option.bind_some, look_dir_cons]
  cases lookup x es <;> simp

theorem depth_lookup (c : Node β) (es : List (String × Node β))
    (h : lookup x es = some c) : depth c ≤ depths es := by
  induction es with
  | nil => cases h
  | cons e es ih =>
    obtain ⟨y,d⟩ := e
    rw [lookup] at h
    rw [depths]
    split_ifs at h
    · cases h
      exact Nat.le_max_left _ _
    · exact (ih h).trans (Nat.le_max_right _ _)

theorem length_le_depth (h : look t p ≠ none) : p.length ≤ depth t := by
  induction p generalizing t with
  | nil => exact Nat.zero_le _
  | cons x p ih =>
    cases t with
    | file b => simp at h
    | dir es =>
      rw [look_dir_cons] at h
      cases hl : lookup x es with
      | none => simp [hl] at h
      | some c =>
        rw [hl] at h
        have hle := (ih c h).trans (depth_lookup x c es hl)
        rw [List.length_cons, depth]
        omega

section Moves

/-- Nothing is there, or an empty directory. -/
def Vacant (t : Node β) (p : Path) : Prop :=
  look t p = none ∨ look t p = some .dir ∧ ∀ x, look t (p ++ [x]) = none

theorem replaceable_dir :
    replaceable (.dir es) (get t p) = .ok () ↔ Vacant t p := by
  rw [Vacant]
  cases hg : get t p with
  | none => simp [replaceable, look, hg]
  | some c =>
    cases c with
    | file b => simp [replaceable, look, hg, kind]
    | dir ds =>
      have hnames := mem_names t p ds hg
      have hempty : (∀ x, look t (p ++ [x]) = none) ↔ ds = [] := by
        constructor
        · intro h
          cases ds with
          | nil => rfl
          | cons e ds => exact absurd (h e.1) ((hnames e.1).mp (by simp [names]))
        · rintro rfl x
          exact not_not.mp fun h => by simpa [names] using (hnames x).mpr h
      rw [hempty]
      cases ds <;> simp [replaceable, look, hg, kind]

/-- A directory can take the place of nothing or of an empty directory. -/
theorem rename_dir_progress (t : Node β) (src p : Path) (y : String) (hp : look t p = some .dir)
    (hsrc : look t src = some .dir) (hpre : ¬src <+: p ++ [y]) (hdst : Vacant t (p ++ [y])) :
    ∃ t', rename t src (p ++ [y]) = .ok t' := by
  obtain ⟨es,hes⟩ := get_of_dir t src hsrc
  have hne : src ≠ p ++ [y] := fun he => hpre (he ▸ List.prefix_rfl)
  have hstill : look (prune t src) p = some .dir := by
    rw [look_prune, if_neg, hp]
    exact fun h => hpre (h.2.trans (List.prefix_append _ _))
  obtain ⟨t',ht'⟩ := place_progress (.dir es) (prune t src) p y hstill
  refine ⟨t',?_⟩
  rw [rename, stat, hes]
  simp only [hne, hpre, if_false, (replaceable_dir t (p ++ [y]) es).mpr hdst, ht']

theorem rename_dir_target (t t' : Node β) (src dst : Path) (h : rename t src dst = .ok t')
    (hsrc : look t src = some .dir) (hne : src ≠ dst) : Vacant t dst := by
  obtain ⟨es,hes⟩ := get_of_dir t src hsrc
  rw [rename, stat, hes] at h
  simp only [hne, if_false] at h
  split_ifs at h
  rw [← replaceable_dir t dst es]
  cases hr : replaceable (.dir es) (get t dst) with
  | ok u => rfl
  | error e => rw [hr] at h; cases h

theorem writeFile_target (b : β) (t t' : Node β) (p : Path) (h : writeFile b t p = .ok t') :
    look t p ≠ some .dir := by
  intro hdir
  obtain ⟨es,hes⟩ := get_of_dir t p hdir
  rw [writeFile, hes] at h
  cases h

end Moves

section Paths

mutual

def paths : Node β → List Path
  | .file _ => [[]]
  | .dir es => []::pathsBelow es

def pathsBelow : List (String × Node β) → List Path
  | [] => []
  | (x,c)::es => (paths c).map (x :: ·) ++ pathsBelow es

end

theorem mem_pathsBelow (x : String) (c : Node β) (es : List (String × Node β))
    (h : lookup x es = some c) (p : Path) (hp : p ∈ paths c) : x::p ∈ pathsBelow es := by
  induction es with
  | nil => cases h
  | cons e es ih =>
    obtain ⟨y,d⟩ := e
    rw [lookup] at h
    rw [pathsBelow, List.mem_append]
    split_ifs at h with hxy
    · cases h
      exact .inl (List.mem_map.mpr ⟨p,hp,by rw [hxy]⟩)
    · exact .inr (ih h)

theorem mem_paths (t : Node β) (p : Path) (h : look t p ≠ none) : p ∈ paths t := by
  induction p generalizing t with
  | nil => cases t <;> simp [paths]
  | cons x p ih =>
    cases t with
    | file b => simp at h
    | dir es =>
      rw [look_dir_cons] at h
      cases hl : lookup x es with
      | none => simp [hl] at h
      | some c =>
        rw [hl] at h
        rw [paths]
        exact List.mem_cons_of_mem _ (mem_pathsBelow x c es hl p (ih c h))

end Paths

end Lib.FileTree
