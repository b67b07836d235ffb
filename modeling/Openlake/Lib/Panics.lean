import Mathlib

/-!
# Computations that may panic

A computation returns a value or an error, or it panics: a sum does not fit its
width, an index or a slice is out of range, or a conversion to a fixed length is
unwrapped at another length. `lift` is a computation that cannot panic.
-/

set_option autoImplicit false

namespace Lib.Panics

inductive Panic where
  | overflow
  | outOfRange
  | unwrapped
  deriving DecidableEq

inductive Fault (ε : Type) where
  | error (e : ε)
  | panic (p : Panic)
  deriving DecidableEq

abbrev Checked (ε α : Type) := Except (Fault ε) α

variable {ε ε' α β : Type}

def lift (x : Except ε α) : Checked ε α := x.mapError .error

def mapErr (f : ε → ε') : Checked ε α → Checked ε' α
  | .ok a => .ok a
  | .error (.error e) => .error (.error (f e))
  | .error (.panic p) => .error (.panic p)

def add (w a b : ℕ) : Checked ε ℕ :=
  if a+b < 2^w then .ok (a+b) else .error (.panic .overflow)

def index (xs : List α) (i : ℕ) : Checked ε α :=
  match xs[i]? with
  | some x => .ok x
  | none => .error (.panic .outOfRange)

def slice (xs : List α) (lo hi : ℕ) : Checked ε (List α) :=
  if lo ≤ hi ∧ hi ≤ xs.length then .ok ((xs.drop lo).take (hi-lo))
  else .error (.panic .outOfRange)

def ofLength (n : ℕ) (xs : List α) : Checked ε (List α) :=
  if xs.length = n then .ok xs else .error (.panic .unwrapped)

def set (xs : List α) (w : ℕ × α) : Checked ε (List α) :=
  if w.1 < xs.length then .ok (xs.set w.1 w.2) else .error (.panic .outOfRange)

variable {x : Except ε α}

theorem lift_eq_ok {a : α} : lift x = .ok a ↔ x = .ok a := by
  cases x <;> simp [lift, Except.mapError]

theorem lift_ne_panic (x : Except ε α) (p : Panic) : lift x ≠ .error (.panic p) := by
  cases x <;> simp [lift, Except.mapError]

theorem mapErr_lift (f : ε → ε') (x : Except ε α) : mapErr f (lift x) = lift (x.mapError f) := by
  cases x <;> rfl

theorem lift_bind {f : α → Except ε β} {g : α → Checked ε β}
    (h : ∀ a, x = .ok a → g a = lift (f a)) : (lift x >>= g) = lift (x >>= f) := by
  cases x with
  | error e => rfl
  | ok a => exact h a rfl

theorem add_bind {w a b : ℕ} (h : a+b < 2^w) (g : ℕ → Checked ε β) :
    (add w a b >>= g) = g (a+b) := by
  rw [add, if_pos h]
  rfl

variable {xs : List α}

theorem index_bind {i : ℕ} (h : i < xs.length) (g : α → Checked ε β) :
    (index xs i >>= g) = g xs[i] := by
  rw [index, List.getElem?_eq_getElem h]
  rfl

theorem slice_bind {lo hi : ℕ} (h : lo ≤ hi) (h' : hi ≤ xs.length)
    (g : List α → Checked ε β) : (slice xs lo hi >>= g) = g ((xs.drop lo).take (hi-lo)) := by
  rw [slice, if_pos ⟨h,h'⟩]
  rfl

theorem ofLength_bind {n : ℕ} (h : xs.length = n) (g : List α → Checked ε β) :
    (ofLength n xs >>= g) = g xs := by
  rw [ofLength, if_pos h]
  rfl

theorem mapM_index {is : List ℕ} (h : ∀ i ∈ is, i < xs.length) :
    ∃ ys, is.mapM (index xs) = (.ok ys : Checked ε (List α)) ∧
      is.map (fun i => xs[i]?) = ys.map some := by
  induction is with
  | nil => exact ⟨[],rfl,rfl⟩
  | cons i is ih =>
    obtain ⟨ys,hys,hmap⟩ := ih fun j hj => h j (List.mem_cons_of_mem _ hj)
    have hi := h i List.mem_cons_self
    refine ⟨xs[i]::ys,?_,by rw [List.map_cons, List.map_cons, hmap, List.getElem?_eq_getElem hi]⟩
    rw [List.mapM_cons, index_bind hi, hys]
    rfl

theorem foldlM_set {ws : List (ℕ × α)} (h : ∀ w ∈ ws, w.1 < xs.length) :
    ws.foldlM set xs = (.ok (ws.foldl (fun xs w => xs.set w.1 w.2) xs) : Checked ε (List α)) := by
  induction ws generalizing xs with
  | nil => rfl
  | cons w ws ih =>
    have hw : set xs w = (.ok (xs.set w.1 w.2) : Checked ε (List α)) :=
      if_pos (h w List.mem_cons_self)
    rw [List.foldlM_cons, hw, List.foldl_cons]
    refine ih fun w' hw' => ?_
    rw [List.length_set]
    exact h w' (List.mem_cons_of_mem _ hw')

end Lib.Panics
