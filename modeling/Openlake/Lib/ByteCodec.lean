import Mathlib

/-!
# Fixed-width integers as bytes

Little-endian and big-endian encodings of a natural number at a given width,
and their values. An encoding keeps the number modulo the width's power.
-/

set_option autoImplicit false

namespace Lib.ByteCodec

def leBytes : ℕ → ℕ → List UInt8
  | 0, _ => []
  | w+1, x => UInt8.ofNat x::leBytes w (x/256)

def leValue : List UInt8 → ℕ
  | [] => 0
  | b::bs => b.toNat+256*leValue bs

@[simp] theorem length_leBytes (w x : ℕ) : (leBytes w x).length = w := by
  induction w generalizing x with
  | zero => rfl
  | succ w ih => simp [leBytes, ih]

theorem leValue_leBytes (w x : ℕ) : leValue (leBytes w x) = x%256^w := by
  induction w generalizing x with
  | zero => simp [leBytes, leValue, Nat.mod_one]
  | succ w ih =>
    rw [leBytes, leValue, ih, UInt8.toNat_ofNat', show 256^(w+1) = 256*256^w by ring, Nat.mod_mul]

theorem leValue_lt (bytes : List UInt8) : leValue bytes < 256^bytes.length := by
  induction bytes with
  | nil => simp [leValue]
  | cons b bytes ih =>
    have hb := b.toNat_lt
    rw [leValue, List.length_cons, Nat.pow_succ]
    omega

theorem leBytes_inj (w x y : ℕ) (hx : x < 256^w) (hy : y < 256^w)
    (h : leBytes w x = leBytes w y) : x = y := by
  have hv := congrArg leValue h
  rwa [leValue_leBytes, leValue_leBytes, Nat.mod_eq_of_lt hx, Nat.mod_eq_of_lt hy] at hv

def beBytes (w x : ℕ) : List UInt8 := (leBytes w x).reverse

def beValue (bytes : List UInt8) : ℕ := leValue bytes.reverse

@[simp] theorem length_beBytes (w x : ℕ) : (beBytes w x).length = w := by
  simp [beBytes]

theorem beValue_beBytes (w x : ℕ) : beValue (beBytes w x) = x%256^w := by
  rw [beValue, beBytes, List.reverse_reverse, leValue_leBytes]

theorem beValue_lt (bytes : List UInt8) : beValue bytes < 256^bytes.length := by
  rw [beValue, ← List.length_reverse]
  exact leValue_lt _

def slice (bytes : List UInt8) (lo hi : ℕ) : List UInt8 := (bytes.drop lo).take (hi-lo)

theorem slice_append (a b c : List UInt8) :
    slice (a++(b++c)) a.length (a.length+b.length) = b := by
  simp [slice]

end Lib.ByteCodec
