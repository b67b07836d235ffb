import Openlake.Buckets
import Openlake.Lib.Pulling

/-!
# The header line of an aws-chunked chunk

A chunk on the wire is a line with its size in hex and its signature, ended by
`\r\n`, then the payload and another `\r\n`. The decoder takes the line up to the
first `\r\n` it has. It trims the size and the signature and accepts a leading
`+`, as the parser of the standard library does.
-/

set_option autoImplicit false

namespace Openlake.ChunkHeader
open Openlake.Types VersionIds Buckets Lib.Pulling

def crlf : Bytes := [13,10]

def findCrlf : Bytes → Option ℕ
  | [] => none
  | b::rest => if crlf.isPrefixOf (b::rest) then some 0 else (findCrlf rest).map (·+1)

theorem isPrefixOf_append {xs : Bytes} (ys : Bytes) (h : crlf.isPrefixOf xs = true) :
    crlf.isPrefixOf (xs ++ ys) = true := by
  rw [List.isPrefixOf_iff_prefix] at h ⊢
  exact h.trans (List.prefix_append xs ys)

theorem findCrlf_split {xs : Bytes} {p : ℕ} (h : findCrlf xs = some p) :
    xs = xs.take p ++ crlf ++ xs.drop (p+2) ∧ (xs.take p).length = p ∧
      findCrlf (xs.take p ++ crlf) = some p := by
  induction xs generalizing p with
  | nil => cases h
  | cons b rest ih =>
    rw [findCrlf] at h
    split_ifs at h with hhere
    · obtain rfl := Option.some.inj h
      obtain ⟨tail,htail⟩ := List.isPrefixOf_iff_prefix.mp hhere
      rw [← htail]
      exact ⟨rfl,rfl,rfl⟩
    · obtain ⟨q,hq,rfl⟩ := Option.map_eq_some_iff.mp h
      obtain ⟨hsplit,hlen,hfind⟩ := ih hq
      refine ⟨congrArg (b :: ·) hsplit,congrArg (·+1) hlen,?_⟩
      have hnot : ¬crlf.isPrefixOf (b::(rest.take q ++ crlf)) = true := by
        intro hpre
        apply hhere
        have := isPrefixOf_append (rest.drop (q+2)) hpre
        rwa [List.cons_append, ← hsplit] at this
      rw [List.take_succ_cons, List.cons_append, findCrlf, if_neg hnot, hfind]
      rfl

theorem findCrlf_stable : Stable findCrlf := by
  intro xs ys p h
  induction xs generalizing p with
  | nil => cases h
  | cons b rest ih =>
    rw [findCrlf] at h
    rw [List.cons_append, findCrlf]
    split_ifs at h with hhere
    · have hpre := isPrefixOf_append ys hhere
      rw [List.cons_append] at hpre
      rw [if_pos hpre, h]
    · obtain ⟨q,hq,rfl⟩ := Option.map_eq_some_iff.mp h
      have hnot : ¬crlf.isPrefixOf (b::(rest ++ ys)) = true := by
        -- the rest holds a later CRLF, so it is not empty and decides the test
        cases rest with
        | nil => cases hq
        | cons b' rest => simpa [crlf] using hhere
      rw [if_neg hnot, ih q hq]
      rfl

theorem findCrlf_line {line : Bytes} (h : 13 ∉ line) (rest : Bytes) :
    findCrlf (line ++ crlf ++ rest) = some line.length := by
  induction line with
  | nil => rfl
  | cons b line ih =>
    have hb : ¬crlf.isPrefixOf (b::(line ++ crlf ++ rest)) = true := by
      have : (13 : UInt8) ≠ b := fun heq => h (by simp [heq])
      simp [crlf, this]
    rw [List.cons_append, List.cons_append, findCrlf, if_neg hb,
      ih (fun hm => h (List.mem_cons_of_mem b hm))]
    rfl

def fromUtf8 (bytes : Bytes) : Option (List Char) := bytes.toByteArray.utf8Decode?.map Array.toList

theorem fromUtf8_utf8 (s : String) : fromUtf8 (utf8 s) = some s.toList := by
  have h : (utf8 s).toByteArray = s.toList.utf8Encode := rfl
  rw [fromUtf8, h, List.utf8Decode?_utf8Encode]
  rfl

def splitOnce (sep : Char) : List Char → Option (List Char × List Char)
  | [] => none
  | c::cs => if c = sep then some ([],cs) else (splitOnce sep cs).map (fun r => (c::r.1,r.2))

theorem splitOnce_append {sep : Char} {xs : List Char} (h : sep ∉ xs) (ys : List Char) :
    splitOnce sep (xs ++ sep::ys) = some (xs,ys) := by
  induction xs with
  | nil => rw [List.nil_append, splitOnce, if_pos rfl]
  | cons c xs ih =>
    have hne : c ≠ sep := fun heq => h (by simp [heq])
    rw [List.cons_append, splitOnce, if_neg hne, ih (fun hm => h (List.mem_cons_of_mem c hm))]
    rfl

def radixDigits (acc : ℕ) : List Char → Option ℕ
  | [] => some acc
  | c::cs => do
    let d ← toDigit c
    if 16*acc+d < 2^64 then radixDigits (16*acc+d) cs else none

def usizeFromStrRadix : List Char → Option ℕ
  | [] => none
  | ['+'] => none
  | '+'::cs => radixDigits 0 cs
  | cs => radixDigits 0 cs

def stripPrefix (pre cs : List Char) : Option (List Char) :=
  if pre.isPrefixOf cs then some (cs.drop pre.length) else none

def signatureField : List Char := "chunk-signature=".toList

def parseHeader (line : Bytes) : Except IoError (ℕ × List Char) := do
  let chars ← (fromUtf8 line).elim (.error (.decode "aws-chunked: header not utf-8")) .ok
  let (sizeHex,sig) ← (splitOnce ';' chars).elim
    (.error (.decode "aws-chunked: header missing ';'")) .ok
  let size ← (usizeFromStrRadix (trim sizeHex)).elim
    (.error (.decode "aws-chunked: bad chunk size")) .ok
  let sig ← (stripPrefix signatureField sig).elim
    (.error (.decode "aws-chunked: missing chunk-signature")) .ok
  return (size,trim sig)

section Line

def hexAlphabet : List Char := "0123456789abcdefABCDEF".toList

theorem mem_hexAlphabet {c : Char} (h : (toDigit c).isSome) : c ∈ hexAlphabet := by
  have hmem : ∀ n < 128, (toDigit (Char.ofNat n)).isSome → Char.ofNat n ∈ hexAlphabet := by
    decide +kernel
  have hlt : c.toNat < 128 := by
    by_contra hge
    have habove : ∀ d : Char, d.toNat < 128 → ¬c ≤ d := fun d hd hle => by
      have : c.toNat ≤ d.toNat := UInt32.le_iff_toNat_le.mp hle
      omega
    simp [toDigit, habove '9' (by decide), habove 'f' (by decide), habove 'F' (by decide)] at h
  have := hmem c.toNat hlt
  rw [Char.ofNat_toNat] at this
  exact this h

theorem hexAlphabet_spec : ∀ c ∈ hexAlphabet,
    isWhitespace c = false ∧ c ≠ ';' ∧ c ≠ '+' ∧ 13 ∉ String.utf8EncodeChar c := by
  have hall : hexAlphabet.all (fun c =>
      isWhitespace c = false ∧ c ≠ ';' ∧ c ≠ '+' ∧ 13 ∉ String.utf8EncodeChar c) = true := by
    decide +kernel
  simpa using hall

variable {cs : List Char}

theorem trim_plain (h : ∀ c ∈ cs, isWhitespace c = false) : trim cs = cs := by
  have hdrop : ∀ ds : List Char, (∀ c ∈ ds, isWhitespace c = false) →
      ds.dropWhile isWhitespace = ds := by
    intro ds hds
    cases ds with
    | nil => rfl
    | cons c ds => rw [List.dropWhile_cons_of_neg (by simp [hds c List.mem_cons_self])]
  rw [trim, hdrop cs h, hdrop cs.reverse (fun c hc => h c (List.mem_reverse.mp hc)),
    List.reverse_reverse]

/-- A signature is sixty-four hex digits. -/
abbrev Signature := { s : String // s.toList.length = 64 ∧ ∀ c ∈ s.toList, (toDigit c).isSome }

theorem digits_of_radixDigits {acc n : ℕ} (h : radixDigits acc cs = some n) :
    ∀ c ∈ cs, (toDigit c).isSome := by
  induction cs generalizing acc with
  | nil => simp
  | cons c cs ih =>
    rw [radixDigits] at h
    cases hd : toDigit c with
    | none => rw [hd] at h; cases h
    | some d =>
      rw [hd] at h
      simp only [Option.bind_eq_bind, Option.bind_some] at h
      split_ifs at h
      exact List.forall_mem_cons.mpr ⟨by simp [hd],ih h⟩

theorem radixDigits_append (acc : ℕ) (xs ys : List Char) :
    radixDigits acc (xs ++ ys) = (radixDigits acc xs).bind (radixDigits · ys) := by
  induction xs generalizing acc with
  | nil => rfl
  | cons c xs ih =>
    simp only [List.cons_append, radixDigits, ih]
    cases toDigit c with
    | none => rfl
    | some d =>
      simp only [Option.bind_eq_bind, Option.bind_some]
      split_ifs <;> rfl

def hexOf (n : ℕ) : List Char :=
  if n < 16 then [hexDigit n] else hexOf (n/16) ++ [hexDigit (n%16)]

theorem radixDigits_hexOf (n : ℕ) (hn : n < 2^64) : radixDigits 0 (hexOf n) = some n := by
  induction n using hexOf.induct with
  | case1 n hlt =>
    rw [hexOf, if_pos hlt]
    simp only [radixDigits, (hexDigit_spec n hlt).2.2.2.1, Option.bind_eq_bind, Option.bind_some,
      Nat.mul_zero, Nat.zero_add, if_pos hn]
  | case2 n hge ih =>
    have hdigit := (hexDigit_spec (n%16) (by omega)).2.2.2.1
    have hvalue : 16*(n/16)+n%16 = n := by omega
    rw [hexOf, if_neg hge, radixDigits_append, ih (by omega)]
    simp only [Option.bind_some, radixDigits, hdigit, Option.bind_eq_bind, hvalue, if_pos hn]

theorem hexOf_ne_nil (n : ℕ) : hexOf n ≠ [] := by
  rw [hexOf]
  split_ifs <;> simp

def header (sizeHex : List Char) (sig : Signature) : Bytes :=
  utf8 (String.ofList (sizeHex ++ ';'::(signatureField ++ sig.val.toList)))

variable {n : ℕ}

theorem usizeFromStrRadix_digits (hne : cs ≠ [])
    (h : radixDigits 0 cs = some n) : usizeFromStrRadix cs = some n := by
  have hplus : '+' ∉ cs := fun hm =>
    (hexAlphabet_spec _ (mem_hexAlphabet (digits_of_radixDigits h _ hm))).2.2.1 rfl
  rw [usizeFromStrRadix]
  · exact h
  · exact hne
  · rintro rfl
    simp at hplus
  · rintro cs rfl
    simp at hplus

variable {sizeHex : List Char}

theorem parseHeader_header (hne : sizeHex ≠ [])
    (h : radixDigits 0 sizeHex = some n) (sig : Signature) :
    parseHeader (header sizeHex sig) = .ok (n,sig.val.toList) := by
  have hdigits := fun c hc => hexAlphabet_spec c (mem_hexAlphabet (digits_of_radixDigits h c hc))
  have hsig := fun c hc => hexAlphabet_spec c (mem_hexAlphabet (sig.property.2 c hc))
  have hsplit := splitOnce_append (fun hm => (hdigits ';' hm).2.1 rfl)
    (signatureField ++ sig.val.toList)
  have hstrip : stripPrefix signatureField (signatureField ++ sig.val.toList) =
      some sig.val.toList := by
    rw [stripPrefix, if_pos (List.isPrefixOf_iff_prefix.mpr (List.prefix_append _ _)),
      List.drop_left]
  simp only [parseHeader, header, fromUtf8_utf8, String.toList_ofList, hsplit, hstrip,
    trim_plain (fun c hc => (hdigits c hc).1), trim_plain (fun c hc => (hsig c hc).1),
    usizeFromStrRadix_digits hne h, Option.elim_some, bind, Except.bind]
  rfl

theorem header_no_cr (h : radixDigits 0 sizeHex = some n)
    (sig : Signature) : 13 ∉ header sizeHex sig := by
  have hfield : (';'::signatureField).all (fun c => 13 ∉ String.utf8EncodeChar c) = true := by
    decide +kernel
  rw [header, utf8, String.toList_ofList, List.mem_flatMap]
  rintro ⟨c,hc,hcr⟩
  rw [← List.cons_append, List.mem_append, List.mem_append] at hc
  rcases hc with hc | hc | hc
  · exact (hexAlphabet_spec c (mem_hexAlphabet (digits_of_radixDigits h c hc))).2.2.2 hcr
  · exact absurd hcr (by simpa using List.all_eq_true.mp hfield c hc)
  · exact (hexAlphabet_spec c (mem_hexAlphabet (sig.property.2 c hc))).2.2.2 hcr

end Line

end Openlake.ChunkHeader
