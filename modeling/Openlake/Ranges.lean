import Mathlib

/-!
# Byte ranges

A range header is parsed without the object's size and resolved against it
later. Sizes and positions are 64-bit, and the end of a bounded range is
inclusive.
-/

set_option autoImplicit false

namespace Openlake.Ranges

inductive ByteRange where
  | bounded (start last : UInt64)
  | openEnded (start : UInt64)
  | suffix (lastN : UInt64)
  deriving DecidableEq, Repr

def resolve (size : UInt64) : ByteRange → Option (UInt64 × UInt64)
  | .bounded start last =>
    if size = 0 ∨ size ≤ start then none
    else some (start,min last (size-1)-start+1)
  | .openEnded start => if size = 0 ∨ size ≤ start then none else some (start,size-start)
  | .suffix lastN =>
    if size = 0 ∨ lastN = 0 then none
    else some (size-min lastN size,min lastN size)

def digitValue (c : Char) : Option ℕ :=
  if '0' ≤ c ∧ c ≤ '9' then some (c.toNat-48) else none

def parseDigits (acc : ℕ) : List Char → Option ℕ
  | [] => some acc
  | c::cs => do
    let d ← digitValue c
    if acc*10+d < 2^64 then parseDigits (acc*10+d) cs else none

/-- A leading plus sign is accepted, as the integer parser of the standard
library does. -/
def parseU64 : List Char → Except String UInt64
  | [] => .error "invalid integer in Range"
  | ['+'] => .error "invalid integer in Range"
  | c::cs =>
    match parseDigits 0 (if c = '+' then cs else c::cs) with
    | some v => .ok (UInt64.ofNat v)
    | none => .error "invalid integer in Range"

def rangeUnit : List Char := "bytes=".toList

def splitDash : List Char → Option (List Char × List Char)
  | [] => none
  | c::cs => if c = '-' then some ([],cs) else (splitDash cs).map (fun p => (c::p.1,p.2))

def parseSpec (start last : List Char) : Except String ByteRange :=
  match start,last with
  | [],[] => .error "Range 'bytes=-' has neither start nor suffix"
  | [],_ => do return .suffix (← parseU64 last)
  | _,[] => do return .openEnded (← parseU64 start)
  | _,_ => do
    let s ← parseU64 start
    let e ← parseU64 last
    if e < s then .error "Range end is before start" else .ok (.bounded s e)

def parseRangeHeader : Option (List Char) → Except String (Option ByteRange)
  | none => .ok none
  | some raw =>
    match raw.dropPrefix? rangeUnit with
    | none => .error "Range must start with 'bytes='"
    | some spec =>
      if spec.contains ',' then .error "multi-range requests are not supported"
      else
        match splitDash spec with
        | none => .error "Range missing '-' separator"
        | some (start,last) => do return some (← parseSpec start last)

def Ordered : ByteRange → Prop
  | .bounded start last => start ≤ last
  | _ => True

theorem parseSpec_ordered (start last : List Char) (range : ByteRange)
    (h : parseSpec start last = .ok range) : Ordered range := by
  unfold parseSpec at h
  split at h
  · cases h
  · cases hl : parseU64 last with
    | error e => simp [hl, bind, Except.bind] at h
    | ok v =>
      simp only [hl, bind, Except.bind, pure, Except.pure, Except.ok.injEq] at h
      subst h
      trivial
  · cases hs : parseU64 start with
    | error e => simp [hs, bind, Except.bind] at h
    | ok v =>
      simp only [hs, bind, Except.bind, pure, Except.pure, Except.ok.injEq] at h
      subst h
      trivial
  · cases hs : parseU64 start with
    | error e => simp [hs, bind, Except.bind] at h
    | ok s =>
      cases hl : parseU64 last with
      | error e => simp [hs, hl, bind, Except.bind] at h
      | ok e =>
        simp only [hs, hl, bind, Except.bind] at h
        split_ifs at h with hlt
        obtain rfl := Except.ok.inj h
        exact UInt64.not_lt.mp hlt

theorem parseRangeHeader_ordered (hdr : Option (List Char)) (range : ByteRange)
    (h : parseRangeHeader hdr = .ok (some range)) : Ordered range := by
  cases hdr with
  | none => cases h
  | some raw =>
    simp only [parseRangeHeader] at h
    split at h
    · cases h
    · split_ifs at h
      split at h
      · cases h
      · rename_i start last _
        cases hspec : parseSpec start last with
        | error e => simp [hspec, bind, Except.bind] at h
        | ok r =>
          simp only [hspec, bind, Except.bind, pure, Except.pure, Except.ok.injEq,
            Option.some.injEq] at h
          exact h ▸ parseSpec_ordered start last r hspec

theorem toNat_min (a b : UInt64) : (min a b).toNat = min a.toNat b.toNat := by
  show (if a ≤ b then a else b).toNat = _
  split_ifs with h
  · rw [Nat.min_eq_left (UInt64.le_iff_toNat_le.mp h)]
  · rw [UInt64.le_iff_toNat_le] at h
    omega

theorem resolve_window (size : UInt64) (range : ByteRange) (hr : Ordered range)
    (w : UInt64 × UInt64) (h : resolve size range = some w) :
    0 < w.2.toNat ∧ w.1.toNat+w.2.toNat ≤ size.toNat := by
  have hbound := size.toNat_lt
  have hone : size ≠ 0 → (1 : UInt64) ≤ size ∧ 0 < size.toNat := by
    intro h0
    have : size.toNat ≠ 0 := fun h => h0 (UInt64.toNat_inj.mp h)
    rw [UInt64.le_iff_toNat_le]
    exact ⟨Nat.pos_of_ne_zero this,Nat.pos_of_ne_zero this⟩
  cases range with
  | bounded start last =>
    simp only [resolve] at h
    split_ifs at h with hout
    obtain rfl := Option.some.inj h
    obtain ⟨h0,hstart⟩ := not_or.mp hout
    rw [UInt64.not_le, UInt64.lt_iff_toNat_lt] at hstart
    have hlast : start.toNat ≤ last.toNat := UInt64.le_iff_toNat_le.mp hr
    have hmin : (min last (size-1)).toNat = min last.toNat (size.toNat-1) := by
      rw [toNat_min, UInt64.toNat_sub_of_le _ _ (hone h0).1]
      rfl
    have hle : start ≤ min last (size-1) := by
      rw [UInt64.le_iff_toNat_le, hmin]
      omega
    have hsum : (min last (size-1)-start+1).toNat = min last.toNat (size.toNat-1)-start.toNat+1 := by
      rw [UInt64.toNat_add, UInt64.toNat_sub_of_le _ _ hle, hmin, UInt64.toNat_one]
      exact Nat.mod_eq_of_lt (by omega)
    simp only [hsum]
    omega
  | openEnded start =>
    simp only [resolve] at h
    split_ifs at h with hout
    obtain rfl := Option.some.inj h
    have hstart := UInt64.not_le.mp (not_or.mp hout).2
    rw [UInt64.toNat_sub_of_le _ _ (UInt64.le_of_lt hstart)]
    rw [UInt64.lt_iff_toNat_lt] at hstart
    dsimp only
    omega
  | suffix lastN =>
    simp only [resolve] at h
    split_ifs at h with hout
    obtain rfl := Option.some.inj h
    obtain ⟨h0,hlast⟩ := not_or.mp hout
    have hpos : lastN.toNat ≠ 0 := fun h => hlast (UInt64.toNat_inj.mp h)
    have hsize := (hone h0).2
    have hle : min lastN size ≤ size := by
      rw [UInt64.le_iff_toNat_le, toNat_min]
      omega
    rw [UInt64.toNat_sub_of_le _ _ hle, toNat_min]
    omega

end Openlake.Ranges
