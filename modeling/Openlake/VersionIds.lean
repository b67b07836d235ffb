import Openlake.Types

/-!
# Version ids and data dirs as sixteen bytes

The metadata format stores ids as sixteen raw bytes and every other layer uses
their text. The nil id is the text `null` for a version and the empty text for
a data dir.

To parse a text its dashes are dropped and 32 bytes are read two at a time. A pair
is accepted when it is a hex digit behind a hex digit or behind a plus sign, a
slice that ends inside a character panics.
-/

set_option autoImplicit false

namespace Openlake.VersionIds
open Openlake.Types

abbrev Uuid := Vector UInt8 16

def nil : Uuid := Vector.replicate 16 0

def nullVersionId : String := "null"

def hexDigit (n : ℕ) : Char := if n < 10 then Char.ofNat (48+n) else Char.ofNat (87+n)

def hexByte (b : UInt8) : List Char := [hexDigit (b.toNat/16),hexDigit (b.toNat%16)]

def hexLower (bytes : Bytes) : String := String.ofList (bytes.flatMap hexByte)

def dashed (h : List Char) : List Char :=
  h.take 8 ++ '-'::((h.drop 8).take 4 ++ '-'::((h.drop 12).take 4 ++ '-'::
    ((h.drop 16).take 4 ++ '-'::h.drop 20)))

def formatUuidHex (b : Uuid) : String := String.ofList (dashed (b.toList.flatMap hexByte))

def formatVersionIdBytes (b : Uuid) : String :=
  if b = nil then nullVersionId else formatUuidHex b

def formatDataDirBytes (b : Uuid) : String := if b = nil then "" else formatUuidHex b

inductive Parsed (α : Type) where
  | ok (a : α)
  | error (e : IoError)
  | panicked
  deriving DecidableEq

def toDigit (c : Char) : Option ℕ :=
  if '0' ≤ c ∧ c ≤ '9' then some (c.toNat-48)
  else if 'a' ≤ c ∧ c ≤ 'f' then some (c.toNat-87)
  else if 'A' ≤ c ∧ c ≤ 'F' then some (c.toNat-55)
  else none

def fromStrRadix (c d : Char) : Option UInt8 :=
  if c = '+' then (toDigit d).map UInt8.ofNat
  else (toDigit c).bind (fun a => (toDigit d).map (fun b => UInt8.ofNat (16*a+b)))

def parsePairs (field : String) : List Char → Parsed Bytes
  | [] => .ok []
  | [c] => if c.utf8Size = 2 then .error (.encode (field ++ ": invalid hex")) else .panicked
  | c::d::rest =>
    if c.utf8Size = 1 then
      if d.utf8Size = 1 then
        match fromStrRadix c d with
        | none => .error (.encode (field ++ ": invalid hex"))
        | some b =>
          match parsePairs field rest with
          | .ok bs => .ok (b::bs)
          | .error e => .error e
          | .panicked => .panicked
      else .panicked
    else if c.utf8Size = 2 then .error (.encode (field ++ ": invalid hex"))
    else .panicked

def parseUuidBytes (s field : String) : Parsed Uuid :=
  if s = "" ∨ s = nullVersionId then .ok nil
  else
    let hex := s.toList.filter (fun c => c ≠ '-')
    let len := (hex.map Char.utf8Size).sum
    if len ≠ 32 then
      .error (.encode (field ++ ": expected 32 hex chars after stripping dashes, got " ++ toString len))
    else
      match parsePairs field hex with
      | .ok bs => if h : bs.toArray.size = 16 then .ok ⟨bs.toArray,h⟩ else .panicked
      | .error e => .error e
      | .panicked => .panicked

theorem hexDigit_spec (n : ℕ) (hn : n < 16) : (hexDigit n).utf8Size = 1 ∧ hexDigit n ≠ '-' ∧
    hexDigit n ≠ '+' ∧ toDigit (hexDigit n) = some n ∧
    String.utf8EncodeChar (hexDigit n) ≠ [110] := by
  interval_cases n <;> decide

theorem hexByte_spec (b : UInt8) (c : Char) (hc : c ∈ hexByte b) :
    c.utf8Size = 1 ∧ c ≠ '-' := by
  have hb := b.toNat_lt
  simp only [hexByte, List.mem_cons, List.not_mem_nil, or_false] at hc
  rcases hc with rfl | rfl
  · exact ⟨(hexDigit_spec _ (by omega)).1,(hexDigit_spec _ (by omega)).2.1⟩
  · exact ⟨(hexDigit_spec _ (by omega)).1,(hexDigit_spec _ (by omega)).2.1⟩

theorem mem_hexDigits (bytes : Bytes) (c : Char) (hc : c ∈ bytes.flatMap hexByte) :
    c.utf8Size = 1 ∧ c ≠ '-' := by
  obtain ⟨b,-,hb⟩ := List.mem_flatMap.mp hc
  exact hexByte_spec b c hb

theorem length_hexDigits (bytes : Bytes) : (bytes.flatMap hexByte).length = 2*bytes.length := by
  induction bytes with
  | nil => rfl
  | cons b bytes ih =>
    rw [List.flatMap_cons, List.length_append, ih]
    simp only [hexByte, List.length_cons, List.length_nil]
    omega

theorem fromStrRadix_hexByte (b : UInt8) :
    fromStrRadix (hexDigit (b.toNat/16)) (hexDigit (b.toNat%16)) = some b := by
  have hb := b.toNat_lt
  obtain ⟨-,-,hp,hd,-⟩ := hexDigit_spec (b.toNat/16) (by omega)
  obtain ⟨-,-,-,hd',-⟩ := hexDigit_spec (b.toNat%16) (by omega)
  rw [fromStrRadix, if_neg hp, hd, hd', Option.bind_some, Option.map_some, Nat.div_add_mod,
    UInt8.ofNat_toNat]

variable (b : Uuid) (field : String)

theorem parsePairs_hexDigits (bytes : Bytes) :
    parsePairs field (bytes.flatMap hexByte) = .ok bytes := by
  induction bytes with
  | nil => rfl
  | cons b bytes ih =>
    have hb := b.toNat_lt
    have h1 := (hexDigit_spec (b.toNat/16) (by omega)).1
    have h2 := (hexDigit_spec (b.toNat%16) (by omega)).1
    rw [List.flatMap_cons, hexByte, List.cons_append, List.cons_append, List.nil_append, parsePairs,
      if_pos h1, if_pos h2, fromStrRadix_hexByte, ih]

theorem filter_dashed (h : List Char) (hc : ∀ c ∈ h, c ≠ '-') :
    (dashed h).filter (fun c => c ≠ '-') = h := by
  have hf : ∀ l : List Char, (∀ c ∈ l, c ∈ h) → l.filter (fun c => c ≠ '-') = l := by
    intro l hl
    rw [List.filter_eq_self]
    exact fun c hm => by simpa using hc c (hl c hm)
  simp only [dashed, List.filter_append, List.filter_cons]
  rw [hf _ (fun c hm => List.mem_of_mem_take hm),
    hf _ (fun c hm => List.mem_of_mem_drop (List.mem_of_mem_take hm)),
    hf _ (fun c hm => List.mem_of_mem_drop (List.mem_of_mem_take hm)),
    hf _ (fun c hm => List.mem_of_mem_drop (List.mem_of_mem_take hm)),
    hf _ (fun c hm => List.mem_of_mem_drop hm)]
  simp only [ne_eq, not_true_eq_false, decide_false, Bool.false_eq_true, if_false]
  have h12 := List.take_append_drop 4 (h.drop 8)
  have h16 := List.take_append_drop 4 (h.drop 12)
  have h20 := List.take_append_drop 4 (h.drop 16)
  rw [List.drop_drop] at h12 h16 h20
  rw [h20, h16, h12, List.take_append_drop]

theorem length_dashed (h : List Char) (hl : h.length = 32) : (dashed h).length = 36 := by
  simp [dashed, hl]

theorem formatUuidHex_toList :
    (formatUuidHex b).toList = dashed (b.toList.flatMap hexByte) := String.toList_ofList

theorem length_formatUuidHex : (formatUuidHex b).toList.length = 36 := by
  rw [formatUuidHex_toList]
  exact length_dashed _ (by rw [length_hexDigits]; simp)

theorem formatUuidHex_ne (s : String) (hs : s.toList.length ≠ 36) :
    formatUuidHex b ≠ s := fun h => hs (by rw [← h]; exact length_formatUuidHex b)

theorem parseUuidBytes_formatUuidHex :
    parseUuidBytes (formatUuidHex b) field = .ok b := by
  have hne : ¬(formatUuidHex b = "" ∨ formatUuidHex b = nullVersionId) := by
    rintro (h | h) <;> exact formatUuidHex_ne b _ (by decide) h
  have hlen : (((b.toList.flatMap hexByte).map Char.utf8Size).sum) = 32 := by
    have hone : (b.toList.flatMap hexByte).map Char.utf8Size =
        (b.toList.flatMap hexByte).map (fun _ => 1) :=
      List.map_congr_left (fun c hc => (mem_hexDigits _ c hc).1)
    rw [hone, List.map_const', List.sum_replicate_nat, length_hexDigits]
    simp
  rw [parseUuidBytes, if_neg hne, formatUuidHex_toList,
    filter_dashed _ (fun c hc => (mem_hexDigits _ c hc).2)]
  simp only [hlen, parsePairs_hexDigits]
  rw [if_neg (by simp), dif_pos (by simp)]
  simp [Vector.toList]

theorem parseUuidBytes_formatVersionIdBytes :
    parseUuidBytes (formatVersionIdBytes b) field = .ok b := by
  rw [formatVersionIdBytes]
  split_ifs with h
  · rw [parseUuidBytes, if_pos (.inr rfl), h]
  · exact parseUuidBytes_formatUuidHex b field

theorem parseUuidBytes_formatDataDirBytes :
    parseUuidBytes (formatDataDirBytes b) field = .ok b := by
  rw [formatDataDirBytes]
  split_ifs with h
  · rw [parseUuidBytes, if_pos (.inl rfl), h]
  · exact parseUuidBytes_formatUuidHex b field

theorem formatVersionIdBytes_injective : Function.Injective formatVersionIdBytes := by
  intro a b h
  have ha := parseUuidBytes_formatVersionIdBytes a ""
  rw [h, parseUuidBytes_formatVersionIdBytes b ""] at ha
  exact (Parsed.ok.inj ha).symm

theorem length_utf8_ascii (l : List Char) (h : ∀ c ∈ l, c.utf8Size = 1) :
    (l.flatMap String.utf8EncodeChar).length = l.length := by
  rw [List.length_flatMap, List.map_congr_left (fun c hc => by
    rw [String.length_utf8EncodeChar, h c hc] : ∀ c ∈ l, _ = 1)]
  simp

theorem mem_dashed (h : List Char) (c : Char) (hc : c ∈ dashed h) : c ∈ h ∨ c = '-' := by
  by_cases hd : c = '-'
  · exact .inr hd
  · left
    simp only [dashed, List.mem_append, List.mem_cons, hd, false_or] at hc
    rcases hc with hc | hc | hc | hc | hc
    · exact List.mem_of_mem_take hc
    · exact List.mem_of_mem_drop (List.mem_of_mem_take hc)
    · exact List.mem_of_mem_drop (List.mem_of_mem_take hc)
    · exact List.mem_of_mem_drop (List.mem_of_mem_take hc)
    · exact List.mem_of_mem_drop hc

theorem length_utf8_formatUuidHex : (utf8 (formatUuidHex b)).length = 36 := by
  rw [utf8, length_utf8_ascii, length_formatUuidHex]
  intro c hc
  rw [formatUuidHex_toList] at hc
  rcases mem_dashed _ c hc with hc | rfl
  · exact (mem_hexDigits _ c hc).1
  · decide

theorem utf8_formatUuidHex_head (rest : Bytes) :
    utf8 (formatUuidHex b) ≠ 110::rest := by
  obtain ⟨a,l,hb⟩ := List.exists_cons_of_length_pos (show 0 < b.toList.length by simp)
  have ha := a.toNat_lt
  obtain ⟨hsize,-,-,-,hne⟩ := hexDigit_spec (a.toNat/16) (by omega)
  rw [utf8, formatUuidHex_toList, hb, List.flatMap_cons, hexByte, List.cons_append, dashed,
    List.take_succ_cons, List.cons_append, List.flatMap_cons]
  intro h
  obtain ⟨x,hx⟩ := List.length_eq_one_iff.mp ((String.length_utf8EncodeChar _).trans hsize)
  rw [hx, List.cons_append] at h
  rw [hx] at hne
  exact hne (by rw [(List.cons.inj h).1])

theorem utf8_formatVersionIdBytes_append (a b : Uuid) (x y : Bytes)
    (h : utf8 (formatVersionIdBytes a) ++ x = utf8 (formatVersionIdBytes b) ++ y) :
    a = b ∧ x = y := by
  have hnull : utf8 nullVersionId = [110,117,108,108] := by decide
  have hlen : (utf8 (formatVersionIdBytes a)).length = (utf8 (formatVersionIdBytes b)).length := by
    have hcross : ∀ (c : Uuid) (z w : Bytes), utf8 (formatUuidHex c) ++ z ≠ utf8 nullVersionId ++ w := by
      intro c z w hcw
      obtain ⟨d,l,hd⟩ := List.exists_cons_of_length_pos
        (show 0 < (utf8 (formatUuidHex c)).length by rw [length_utf8_formatUuidHex]; decide)
      rw [hd, hnull, List.cons_append, List.cons_append] at hcw
      exact utf8_formatUuidHex_head c l (by rw [hd, (List.cons.inj hcw).1])
    rw [formatVersionIdBytes, formatVersionIdBytes] at h ⊢
    split_ifs at h ⊢
    · rfl
    · exact absurd h.symm (hcross b y x)
    · exact absurd h (hcross a x y)
    · rw [length_utf8_formatUuidHex, length_utf8_formatUuidHex]
  obtain ⟨hid,hrest⟩ := List.append_inj h hlen
  exact ⟨formatVersionIdBytes_injective (utf8_injective hid),hrest⟩

def stripped (s : String) : List Char := s.toList.filter (fun c => c ≠ '-')

def byteLen (hex : List Char) : ℕ := (hex.map Char.utf8Size).sum

def IsHex (c : Char) : Prop :=
  ('0' ≤ c ∧ c ≤ '9') ∨ ('a' ≤ c ∧ c ≤ 'f') ∨ ('A' ≤ c ∧ c ≤ 'F')

def Accepted (c d : Char) : Prop := (IsHex c ∨ c = '+') ∧ IsHex d

instance (c : Char) : Decidable (IsHex c) := inferInstanceAs (Decidable (_ ∨ _ ∨ _))

instance (c d : Char) : Decidable (Accepted c d) := inferInstanceAs (Decidable (_ ∧ _))

def AllAccepted : List Char → Prop
  | [] => True
  | [_] => False
  | c::d::rest => Accepted c d ∧ AllAccepted rest

/-- The two bytes after a run of accepted pairs end inside a character. -/
def CutsChar : List Char → Prop
  | [] => False
  | [c] => c.utf8Size ≠ 2
  | c::d::rest =>
    if Accepted c d then CutsChar rest else 2 < c.utf8Size ∨ c.utf8Size = 1 ∧ d.utf8Size ≠ 1

theorem isHex_iff (c : Char) : IsHex c ↔ ∃ n, toDigit c = some n := by
  rw [IsHex, toDigit]
  split_ifs with h1 h2 h3 <;> simp [*]

variable {n : ℕ}

theorem toDigit_ascii {c : Char} (h : toDigit c = some n) : c.utf8Size = 1 ∧ c ≠ '+' := by
  rw [Char.utf8Size_eq_one_iff]
  rw [toDigit] at h
  split_ifs at h with h1 h2 h3
  · exact ⟨UInt32.le_trans h1.2 (by decide),by rintro rfl; exact absurd h1.1 (by decide)⟩
  · exact ⟨UInt32.le_trans h2.2 (by decide),by rintro rfl; exact absurd h2.1 (by decide)⟩
  · exact ⟨UInt32.le_trans h3.2 (by decide),by rintro rfl; exact absurd h3.1 (by decide)⟩

theorem IsHex.ascii {c : Char} (h : IsHex c) : c.utf8Size = 1 ∧ c ≠ '+' := by
  obtain ⟨n,hn⟩ := (isHex_iff c).mp h
  exact toDigit_ascii hn

variable {c d : Char}

theorem Accepted.ascii (h : Accepted c d) : c.utf8Size = 1 ∧ d.utf8Size = 1 := by
  refine ⟨?_,h.2.ascii.1⟩
  rcases h.1 with hc | rfl
  · exact hc.ascii.1
  · decide

theorem fromStrRadix_isSome (c d : Char) : (fromStrRadix c d).isSome ↔ Accepted c d := by
  rw [fromStrRadix, Accepted, isHex_iff, isHex_iff]
  by_cases hc : c = '+'
  · simp [hc, Option.isSome_iff_exists]
  · simp only [hc, if_false, or_false, Option.isSome_iff_exists, Option.bind_eq_some_iff,
      Option.map_eq_some_iff]
    constructor
    · rintro ⟨b,x,hx,y,hy,-⟩
      exact ⟨⟨x,hx⟩,y,hy⟩
    · rintro ⟨⟨x,hx⟩,y,hy⟩
      exact ⟨_,x,hx,y,hy,rfl⟩

theorem accepted_of_some {b : UInt8} (h : fromStrRadix c d = some b) : Accepted c d :=
  (fromStrRadix_isSome c d).mp (by rw [h]; rfl)

theorem not_accepted_of_none (h : fromStrRadix c d = none) : ¬Accepted c d := by
  rw [← fromStrRadix_isSome, h]
  simp

/-- What a text of pairs is parsed to. -/
inductive PairsParsed (field : String) (hex : List Char) : Parsed Bytes → Prop
  | ok (bs : Bytes) (h : AllAccepted hex) (hlen : hex.length = 2*bs.length) :
      PairsParsed field hex (.ok bs)
  | error (h : ¬AllAccepted hex) (hcut : ¬CutsChar hex) :
      PairsParsed field hex (.error (.encode (field ++ ": invalid hex")))
  | panicked (h : ¬AllAccepted hex) (hcut : CutsChar hex) : PairsParsed field hex .panicked

variable (field : String)

theorem parsePairs_parsed (hex : List Char) :
    PairsParsed field hex (parsePairs field hex) := by
  induction hex using parsePairs.induct field with
  | case1 => exact .ok [] trivial rfl
  | case2 c hc =>
    rw [parsePairs, if_pos hc]
    exact .error id (not_not.mpr hc)
  | case3 c hc =>
    rw [parsePairs, if_neg hc]
    exact .panicked id hc
  | case4 c d rest hc hd hnone =>
    have hacc := not_accepted_of_none hnone
    rw [parsePairs, if_pos hc, if_pos hd, hnone]
    exact .error (fun h => hacc h.1) (by simp [CutsChar, hacc, hc, hd])
  | case5 c d rest hc hd b hb bs hbs ih =>
    have hacc := accepted_of_some hb
    rw [hbs] at ih
    rw [parsePairs, if_pos hc, if_pos hd, hb]
    dsimp only
    rw [hbs]
    cases ih with
    | ok bs h hlen => exact .ok (b::bs) ⟨hacc,h⟩ (by simp; omega)
  | case6 c d rest hc hd b hb e he ih =>
    have hacc := accepted_of_some hb
    rw [he] at ih
    rw [parsePairs, if_pos hc, if_pos hd, hb]
    dsimp only
    rw [he]
    cases ih with
    | error h hcut => exact .error (fun hall => h hall.2) (by rwa [CutsChar, if_pos hacc])
  | case7 c d rest hc hd b hb hp ih =>
    have hacc := accepted_of_some hb
    rw [hp] at ih
    rw [parsePairs, if_pos hc, if_pos hd, hb]
    dsimp only
    rw [hp]
    cases ih with
    | panicked h hcut => exact .panicked (fun hall => h hall.2) (by rwa [CutsChar, if_pos hacc])
  | case8 c d rest hc hd =>
    have hacc : ¬Accepted c d := fun h => hd h.ascii.2
    rw [parsePairs, if_pos hc, if_neg hd]
    exact .panicked (fun h => hacc h.1) (by rw [CutsChar, if_neg hacc]; exact .inr ⟨hc,hd⟩)
  | case9 c d rest hc hc2 =>
    have hacc : ¬Accepted c d := fun h => hc h.ascii.1
    rw [parsePairs, if_neg hc, if_pos hc2]
    exact .error (fun h => hacc h.1) (by simp [CutsChar, hacc, hc2])
  | case10 c d rest hc hc2 =>
    have hacc : ¬Accepted c d := fun h => hc h.ascii.1
    have hpos := c.utf8Size_pos
    rw [parsePairs, if_neg hc, if_neg hc2]
    exact .panicked (fun h => hacc h.1) (by rw [CutsChar, if_neg hacc]; omega)

variable {hex : List Char}

theorem byteLen_of_hex (h : ∀ c ∈ hex, IsHex c) : byteLen hex = hex.length := by
  rw [byteLen, List.map_congr_left (g := fun _ => 1) fun c hc => (h c hc).ascii.1, List.map_const',
    List.sum_replicate_nat, mul_one]

theorem allAccepted_of_hex (hlen : hex.length = 2*n)
    (h : ∀ c ∈ hex, IsHex c) : AllAccepted hex := by
  induction n generalizing hex with
  | zero =>
    rw [List.length_eq_zero_iff.mp hlen]
    trivial
  | succ n ih =>
    match hex, hlen with
    | c::d::rest, hlen =>
      have hrest := @ih rest (by simp at hlen; omega) fun x hx => h x (by simp [hx])
      exact ⟨⟨.inl (h c (by simp)),h d (by simp)⟩,hrest⟩

theorem AllAccepted.byteLen (h : AllAccepted hex) : byteLen hex = hex.length := by
  induction hex using AllAccepted.induct with
  | case1 => rfl
  | case2 c => exact h.elim
  | case3 c d rest ih =>
    have hrest := ih h.2
    rw [VersionIds.byteLen] at hrest ⊢
    simp only [List.map_cons, List.sum_cons, List.length_cons, h.1.ascii.1, h.1.ascii.2, hrest]
    omega

theorem AllAccepted.not_cutsChar (h : AllAccepted hex) : ¬CutsChar hex := by
  induction hex using AllAccepted.induct with
  | case1 => exact id
  | case2 c => exact h.elim
  | case3 c d rest ih =>
    rw [CutsChar, if_pos h.1]
    exact ih h.2

theorem AllAccepted.hex_iff (h : AllAccepted hex) :
    (∀ c ∈ hex, IsHex c) ↔ '+' ∉ hex := by
  induction hex using AllAccepted.induct with
  | case1 => simp
  | case2 c => exact h.elim
  | case3 c d rest ih =>
    have hd : '+' ≠ d := fun hd => h.1.2.ascii.2 hd.symm
    have hc : IsHex c ↔ '+' ≠ c := ⟨fun hc he => hc.ascii.2 he.symm,
      fun hne => h.1.1.resolve_right fun he => hne he.symm⟩
    rw [List.forall_mem_cons, List.forall_mem_cons, ih h.2, hc]
    simp [h.1.2, hd]

def digitAt (hex : List Char) (i : ℕ) : ℕ := (hex[i]?.bind toDigit).getD 0

theorem toDigit_lt {c : Char} (h : toDigit c = some n) : n < 16 := by
  have hle : ∀ {a b : Char}, a ≤ b → a.toNat ≤ b.toNat := fun h => h
  rw [toDigit] at h
  split_ifs at h with h1 h2 h3
  · have := hle h1.2
    simp at h this
    omega
  · have := hle h2.2
    simp at h this
    omega
  · have := hle h3.2
    simp at h this
    omega

theorem parsePairs_digitAt (hex : List Char) (bs : Bytes)
    (h : ∀ c ∈ hex, IsHex c) (hp : parsePairs field hex = .ok bs) (i : ℕ) (hi : i < bs.length) :
    (bs.getD i 0).toNat = 16*digitAt hex (2*i)+digitAt hex (2*i+1) := by
  induction hex using parsePairs.induct field generalizing bs i with
  | case5 c d rest hc hd b hb tail htail ih =>
    rw [parsePairs, if_pos hc, if_pos hd, hb] at hp
    dsimp only at hp
    rw [htail] at hp
    cases hp
    cases i with
    | zero =>
      obtain ⟨x,hx⟩ := (isHex_iff c).mp (h c (by simp))
      obtain ⟨y,hy⟩ := (isHex_iff d).mp (h d (by simp))
      have hx16 := toDigit_lt hx
      have hy16 := toDigit_lt hy
      rw [fromStrRadix, if_neg (toDigit_ascii hx).2, hx, hy] at hb
      cases hb
      simp only [List.getD_cons_zero, digitAt, List.getElem?_cons_zero, List.getElem?_cons_succ,
        Nat.mul_zero, Nat.zero_add, Option.bind_some, hx, hy, Option.getD_some,
        UInt8.toNat_ofNat']
      omega
    | succ i =>
      have hrest := ih tail (fun x hx => h x (by simp [hx])) htail i (by simpa using hi)
      rw [List.getD_cons_succ, hrest]
      rfl
  | _ => simp_all [parsePairs]

def HexText (s : String) : Prop := (stripped s).length = 32 ∧ ∀ c ∈ stripped s, IsHex c

variable {s : String}

theorem HexText.byteLen (h : HexText s) : byteLen (stripped s) = 32 := by
  rw [byteLen_of_hex h.2, h.1]

/-- A text is parsed as an id: no panic, success for the nil texts and the hex texts, and the
bytes the digits spell. -/
structure ParsesText (s field : String) : Prop where
  safe : parseUuidBytes s field ≠ .panicked
  accepts : (∃ b, parseUuidBytes s field = .ok b) ↔ s = "" ∨ s = nullVersionId ∨ HexText s
  digits : ∀ b, parseUuidBytes s field = .ok b → HexText s → ∀ i : Fin 16,
    (b.get i).toNat = 16*digitAt (stripped s) (2*i)+digitAt (stripped s) (2*i+1)

/-- If 32 bytes are left without the dashes, no slice of two cuts a character and they are
not a run of accepted pairs with a plus sign among them. -/
def Readable (s : String) : Prop :=
  byteLen (stripped s) = 32 →
    ¬CutsChar (stripped s) ∧ ¬(AllAccepted (stripped s) ∧ '+' ∈ stripped s)

theorem parseUuidBytes_nil (h : s = "" ∨ s = nullVersionId) :
    parseUuidBytes s field = .ok nil ∧ byteLen (stripped s) ≠ 32 := by
  refine ⟨by rw [parseUuidBytes, if_pos h],?_⟩
  rcases h with rfl | rfl <;> decide

theorem parseUuidBytes_short (h : ¬(s = "" ∨ s = nullVersionId))
    (hlen : byteLen (stripped s) ≠ 32) : ∃ e, parseUuidBytes s field = .error e := by
  rw [parseUuidBytes, if_neg h]
  exact ⟨_,if_pos hlen⟩

theorem parseUuidBytes_pairs (h : ¬(s = "" ∨ s = nullVersionId))
    (hlen : byteLen (stripped s) = 32) : parseUuidBytes s field =
      match parsePairs field (stripped s) with
      | .ok bs => if h : bs.toArray.size = 16 then .ok ⟨bs.toArray,h⟩ else .panicked
      | .error e => .error e
      | .panicked => .panicked := by
  rw [parseUuidBytes, if_neg h]
  exact if_neg (not_not.mpr hlen)

theorem parsesText_of_error {s field : String} {e : IoError} (h : ¬(s = "" ∨ s = nullVersionId))
    (he : parseUuidBytes s field = .error e) (hhex : ¬HexText s) : ParsesText s field where
  safe := by simp [he]
  accepts := by
    rw [← or_assoc, or_iff_right h]
    exact iff_of_false (by simp [he]) hhex
  digits := by simp [he]

theorem parsesText_of_ok {s field : String} {bs : Bytes} (h : ¬(s = "" ∨ s = nullVersionId))
    (hlen : byteLen (stripped s) = 32) (hbs : parsePairs field (stripped s) = .ok bs)
    (hsize : bs.toArray.size = 16) : ParsesText s field ↔ HexText s := by
  have hok : parseUuidBytes s field = .ok ⟨bs.toArray,hsize⟩ := by
    rw [parseUuidBytes_pairs field h hlen, hbs]
    exact dif_pos hsize
  have hiff : (s = "" ∨ s = nullVersionId ∨ HexText s) ↔ HexText s := by
    rw [← or_assoc, or_iff_right h]
  constructor
  · intro htext
    exact hiff.mp (htext.accepts.mp ⟨_,hok⟩)
  · intro hhex
    refine ⟨by simp [hok],iff_of_true ⟨_,hok⟩ (hiff.mpr hhex),fun b hb _ i => ?_⟩
    rw [hok] at hb
    cases hb
    have hi : (i : ℕ) < bs.length := by
      rw [List.size_toArray] at hsize
      omega
    rw [← parsePairs_digitAt field _ bs hhex.2 hbs i hi, List.getD_eq_getElem bs 0 hi]
    rfl

theorem parsesText_iff (s field : String) : ParsesText s field ↔ Readable s := by
  by_cases hnil : s = "" ∨ s = nullVersionId
  · obtain ⟨hok,hlen⟩ := parseUuidBytes_nil field hnil
    refine iff_of_true ⟨by simp [hok],?_,fun b _ hhex => absurd hhex.byteLen hlen⟩
      fun h => absurd h hlen
    exact iff_of_true ⟨_,hok⟩ (or_assoc.mp (.inl hnil))
  by_cases hlen : byteLen (stripped s) = 32
  swap
  · obtain ⟨e,he⟩ := parseUuidBytes_short field hnil hlen
    exact iff_of_true (parsesText_of_error hnil he fun h => hlen h.byteLen) fun h => absurd h hlen
  have hparsed := parsePairs_parsed field (stripped s)
  have heq := parseUuidBytes_pairs field hnil hlen
  -- The three outcomes of the pairs: an error and a panic are passed on as they are.
  cases hpairs : parsePairs field (stripped s) with
  | ok bs =>
    rw [hpairs] at hparsed
    cases hparsed with
    | ok _ hall h2 =>
      have hchars : (stripped s).length = 32 := hall.byteLen.symm.trans hlen
      rw [parsesText_of_ok hnil hlen hpairs (by rw [List.size_toArray]; omega), HexText,
        hall.hex_iff]
      simp [Readable, hlen, hchars, hall, hall.not_cutsChar]
  | error e =>
    rw [hpairs] at hparsed heq
    cases hparsed with
    | error hall hcut =>
      refine iff_of_true (parsesText_of_error hnil heq fun h => hall ?_) fun _ => ⟨hcut,?_⟩
      · exact allAccepted_of_hex (n := 16) h.1 h.2
      · exact fun h => hall h.1
  | panicked =>
    rw [hpairs] at hparsed heq
    cases hparsed with
    | panicked hall hcut => exact iff_of_false (fun h => h.safe heq) fun h => (h hlen).1 hcut

theorem HexText.readable (h : HexText s) : Readable s := by
  intro _
  have hall := allAccepted_of_hex (n := 16) h.1 h.2
  exact ⟨hall.not_cutsChar,fun hplus => hall.hex_iff.mp h.2 hplus.2⟩

theorem parseUuidBytes_hex (h : HexText s) :
    ∃ b, parseUuidBytes s field = .ok b :=
  ((parsesText_iff s field).mpr h.readable).accepts.mpr (.inr (.inr h))

/-- Next to `parsesText_iff`, the text of every id is parsed to the id. -/
theorem parse_uuid_iff (s field : String) :
    (ParsesText s field ∧ ∀ b : Uuid, parseUuidBytes (formatVersionIdBytes b) field = .ok b ∧
      parseUuidBytes (formatDataDirBytes b) field = .ok b) ↔ Readable s := by
  rw [parsesText_iff, and_iff_left]
  exact fun b => ⟨parseUuidBytes_formatVersionIdBytes b field,
    parseUuidBytes_formatDataDirBytes b field⟩

/-- An `é` after one digit is cut in two, and a plus sign stands for a digit. -/
theorem cut_and_signed_texts :
    parseUuidBytes "aéaaaaaaaaaaaaaaaaaaaaaaaaaaaaa" "version_id" = .panicked ∧
      ¬ParsesText "aéaaaaaaaaaaaaaaaaaaaaaaaaaaaaa" "version_id" ∧
      parseUuidBytes "+aaaaaaaaaaaaaaaaaaaaaaaaaaaaaaa" "version_id" =
        .ok #v[10,170,170,170,170,170,170,170,170,170,170,170,170,170,170,170] ∧
      ¬ParsesText "+aaaaaaaaaaaaaaaaaaaaaaaaaaaaaaa" "version_id" := by
  have hcut : parseUuidBytes "aéaaaaaaaaaaaaaaaaaaaaaaaaaaaaa" "version_id" = .panicked := by
    decide +kernel
  have hplus : parseUuidBytes "+aaaaaaaaaaaaaaaaaaaaaaaaaaaaaaa" "version_id" =
      .ok #v[10,170,170,170,170,170,170,170,170,170,170,170,170,170,170,170] := by
    decide +kernel
  refine ⟨hcut,fun h => h.safe hcut,hplus,fun h => ?_⟩
  obtain hs | hs | ⟨-,hs⟩ := h.accepts.mp ⟨_,hplus⟩
  · exact absurd hs (by decide)
  · exact absurd hs (by decide)
  · exact absurd (hs '+' (by decide +kernel)) (by decide)

end Openlake.VersionIds
