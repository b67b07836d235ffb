import Mathlib

/-!
# Flat memory

Memory is a function of the address. A read of a range sees a write exactly where
the ranges meet, and writing what is already there changes nothing.
-/

set_option autoImplicit false

namespace Lib.ByteMemory

variable {B : Type*}

def write (mem : ℕ → B) (start : ℕ) (bytes : List B) : ℕ → B := fun x =>
  if start ≤ x then (bytes[x-start]?).getD (mem x) else mem x

def read (mem : ℕ → B) (start len : ℕ) : List B := (List.range len).map (fun i => mem (start+i))

variable (mem : ℕ → B)

@[simp] theorem read_zero (start : ℕ) : read mem start 0 = [] := rfl

@[simp] theorem length_read (start len : ℕ) : (read mem start len).length = len := by
  simp [read]

theorem getElem?_read (start len i : ℕ) (h : i < len) :
    (read mem start len)[i]? = some (mem (start+i)) := by
  simp [read, h]

theorem read_append (start n k : ℕ) :
    read mem start (n+k) = read mem start n ++ read mem (start+n) k := by
  simp [read, List.range_add, Function.comp_def, Nat.add_assoc]

theorem write_of_outside (start : ℕ) (bytes : List B) (x : ℕ)
    (h : x < start ∨ start+bytes.length ≤ x) : write mem start bytes x = mem x := by
  by_cases hx : start ≤ x
  · rw [write, if_pos hx, List.getElem?_eq_none (by omega), Option.getD_none]
  · rw [write, if_neg hx]

theorem read_write_apart (start at' len : ℕ) (bytes : List B)
    (h : at'+len ≤ start ∨ start+bytes.length ≤ at') :
    read (write mem start bytes) at' len = read mem at' len := by
  apply List.map_congr_left
  intro i hi
  rw [List.mem_range] at hi
  exact write_of_outside mem start bytes _ (by omega)

theorem read_write_self (start : ℕ) (bytes : List B) :
    read (write mem start bytes) start bytes.length = bytes := by
  apply List.ext_getElem?
  intro i
  by_cases hi : i < bytes.length
  · rw [getElem?_read _ _ _ _ hi, write, if_pos (by omega), Nat.add_sub_cancel_left,
      List.getElem?_eq_getElem hi, Option.getD_some]
  · rw [List.getElem?_eq_none (by simpa using hi), List.getElem?_eq_none (by omega)]

theorem write_same (start : ℕ) (bytes : List B)
    (h : read mem start bytes.length = bytes) : write mem start bytes = mem := by
  funext x
  by_cases hx : start ≤ x ∧ x < start+bytes.length
  · have hi := getElem?_read mem start bytes.length (x-start) (by omega)
    rw [h] at hi
    rw [write, if_pos hx.1, hi, Option.getD_some, Nat.add_sub_cancel' hx.1]
  · exact write_of_outside mem start bytes x (by omega)

/-- A part of a range that holds a text holds that part of the text. -/
theorem read_part (start : ℕ) (text : List B) (off len : ℕ)
    (h : read mem start text.length = text) (hlen : off+len ≤ text.length) :
    read mem (start+off) len = (text.drop off).take len := by
  apply List.ext_getElem?
  intro i
  by_cases hi : i < len
  · have hwhole := getElem?_read mem start text.length (off+i) (by omega)
    rw [h] at hwhole
    rw [getElem?_read _ _ _ _ hi, List.getElem?_take_of_lt hi, List.getElem?_drop, hwhole,
      Nat.add_assoc]
  · rw [List.getElem?_eq_none (by simpa using hi), List.getElem?_eq_none (by simp; omega)]

end Lib.ByteMemory
