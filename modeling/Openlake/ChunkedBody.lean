import Openlake.ChunkHeader

/-!
# The aws-chunked body decoder

`ChunkedBodyStream` takes the frames of an HTTP body apart into signed chunks. It
keeps bytes it has read too much in `carry`, checks each chunk against the chain of
signatures and hands out one payload per read. The signature of a chunk is a
function of the signature before it and the payload. A panic is a fault of its
own: sizes are added as in a build with overflow checks, and a slice is checked
against the buffer.

What a read does depends on the bytes ahead only, not on the frames they come in:
`nextChunk` is that function of the bytes. A chunk list that a client writes is
read back whole, every other body yields the payloads of a chain that verified,
and a read panics only at a header that declares a size two short of the machine
word.
-/

set_option autoImplicit false

namespace Openlake.ChunkedBody
open Openlake.Types Streams ChunkHeader Lib.Chunks Lib.Pulling

inductive Frame where
  | data (bytes : Bytes)
  | trailers
  | failed (msg : String)
  deriving DecidableEq

/-- What the reads of a body return: empty frames and trailers are passed over. -/
def AxumBodyStream.reads (body : List Frame) : ByteSource :=
  body.filterMap (fun frame =>
    match frame with
    | .data bytes => if bytes = [] then none else some (.ok bytes)
    | .trailers => none
    | .failed msg => some (.error (.io .other msg)))

inductive Fault where
  | error (e : IoError)
  | overflow
  | outOfRange
  deriving DecidableEq

def slice (xs : Bytes) (start stop : ℕ) : Except Fault Bytes :=
  if start ≤ stop ∧ stop ≤ xs.length then .ok ((xs.take stop).drop start) else .error .outOfRange

theorem slice_eq {xs : Bytes} {start stop : ℕ} (h : start ≤ stop) (h' : stop ≤ xs.length) :
    slice xs start stop = .ok ((xs.take stop).drop start) := if_pos ⟨h,h'⟩

def constantTimeEq (a b : Bytes) : Bool :=
  a.length = b.length && (a.zip b).foldl (fun diff p => diff ||| (p.1 ^^^ p.2)) 0 = 0

theorem foldl_diff (ps : List (UInt8 × UInt8)) (diff : UInt8) :
    ps.foldl (fun diff p => diff ||| (p.1 ^^^ p.2)) diff = 0 ↔
      diff = 0 ∧ ∀ p ∈ ps, p.1 = p.2 := by
  induction ps generalizing diff with
  | nil => simp
  | cons p ps ih => simp [ih, UInt8.or_eq_zero_iff, and_assoc]

theorem constantTimeEq_iff (a b : Bytes) : constantTimeEq a b = true ↔ a = b := by
  simp only [constantTimeEq, Bool.and_eq_true, decide_eq_true_eq, foldl_diff, true_and]
  constructor
  · rintro ⟨hlen,hall⟩
    apply List.ext_getElem hlen
    intro i hi hi'
    exact hall (a[i],b[i]) (List.mem_iff_getElem.mpr ⟨i,by simp [hi, hi'],by simp⟩)
  · rintro rfl
    refine ⟨rfl,fun p hp => ?_⟩
    obtain ⟨i,hi,rfl⟩ := List.mem_iff_getElem.mp hp
    simp

section Decoder

variable (sign : String → Bytes → Signature)

def verifyChunk (chunk : Bytes) (prev : String) (given : List Char) : Except String String :=
  let output := (sign prev chunk).val
  if constantTimeEq (utf8 output) (utf8 (String.ofList given)) then .ok output
  else .error "chunk signature mismatch"

structure ChunkedBodyStream where
  inner : ByteSource
  carry : Bytes
  chunkBuf : Bytes
  chunkPos : ℕ
  runningSig : String
  finished : Bool

def ChunkedBodyStream.new (body : List Frame) (seedSignature : String) : ChunkedBodyStream :=
  ⟨AxumBodyStream.reads body,[],[],0,seedSignature,false⟩

def endedMidChunk : IoError := .io .unexpectedEof "aws-chunked: body ended mid-chunk"

def endedBeforeHeader : IoError := .io .unexpectedEof "aws-chunked: body ended before chunk header"

def notTerminated : IoError := .decode "aws-chunked: chunk not CRLF-terminated"

def holdsAtLeast (need : ℕ) (carry : Bytes) : Option Unit :=
  if need ≤ carry.length then some () else none

def ensureInCarry (need : ℕ) (carry : Bytes) (inner : ByteSource) :
    Except Fault (Bytes × ByteSource) :=
  match pullUntil (holdsAtLeast need) carry inner with
  | .found _ carry inner => .ok (carry,inner)
  | .ended => .error (.error endedMidChunk)
  | .failed e => .error (.error e)

def lift {α : Type} (r : Except IoError α) : Except Fault α := r.mapError .error

/-- The part of `fetchChunk` after the header line. -/
def ChunkedBodyStream.fetchPayload (s : ChunkedBodyStream) (size : ℕ) (sig : List Char)
    (carry : Bytes) (inner : ByteSource) : Except Fault (Bool × ChunkedBodyStream) :=
  if 2^64 ≤ size+2 then .error .overflow
  else do
    let (carry,inner) ← ensureInCarry (size+2) carry inner
    let payload ← slice carry 0 size
    let newRunning ← lift ((verifyChunk sign payload s.runningSig sig).mapError
      (fun e => .decode ("aws-chunked: " ++ e)))
    let terminator ← slice carry size (size+2)
    if terminator ≠ crlf then .error (.error notTerminated)
    else
      let carry ← slice carry (size+2) carry.length
      return (size ≠ 0,{ s with
        inner := inner, carry := carry, chunkBuf := payload, chunkPos := 0,
        runningSig := newRunning })

/-- A read of the inner stream that is not at its end returns bytes, so the header
loop makes progress with every round. -/
def ChunkedBodyStream.fetchChunk (s : ChunkedBodyStream) :
    Except Fault (Bool × ChunkedBodyStream) :=
  match pullUntil findCrlf s.carry s.inner with
  | .failed e => .error (.error e)
  | .ended => .error (.error endedBeforeHeader)
  | .found p carry inner => do
    let line ← slice carry 0 p
    let carry ← slice carry (p+2) carry.length
    let (size,sig) ← lift (parseHeader line)
    s.fetchPayload sign size sig carry inner

/-- Serves the rest of the chunk at hand, after fetching the next one where there
is none. -/
def ChunkedBodyStream.read (s : ChunkedBodyStream) : Except Fault (Bytes × ChunkedBodyStream) :=
  if s.finished then .ok ([],s)
  else do
    let (more,s) ← if s.chunkBuf.length ≤ s.chunkPos then s.fetchChunk sign else .ok (true,s)
    if more = false then .ok ([],{ s with finished := true })
    else
      let payload ← slice s.chunkBuf s.chunkPos s.chunkBuf.length
      return (payload,{ s with chunkPos := s.chunkBuf.length })

def nextPayload (ends : Option IoError) (prev : String) (size : ℕ) (sig : List Char)
    (bytes : Bytes) : Except Fault (Bytes × String × Bytes) :=
  if 2^64 ≤ size+2 then .error .overflow
  else if bytes.length < size+2 then .error (.error (ends.getD endedMidChunk))
  else do
    let newRunning ← lift ((verifyChunk sign (bytes.take size) prev sig).mapError
      (fun e => .decode ("aws-chunked: " ++ e)))
    if (bytes.take (size+2)).drop size ≠ crlf then .error (.error notTerminated)
    else return (bytes.take size,newRunning,bytes.drop (size+2))

/-- The next chunk of the bytes ahead: its payload, its signature and what follows.
`ends` is the error the body ends with. -/
def nextChunk (ends : Option IoError) (prev : String) (bytes : Bytes) :
    Except Fault (Bytes × String × Bytes) :=
  match findCrlf bytes with
  | none => .error (.error (ends.getD endedBeforeHeader))
  | some p => do
    let (size,sig) ← lift (parseHeader (bytes.take p))
    nextPayload sign ends prev size sig (bytes.drop (p+2))

def ChunkedBodyStream.ahead (s : ChunkedBodyStream) : Bytes := s.carry ++ contents s.inner

structure Fetched (s : ChunkedBodyStream) (data : Bytes) (sig : String) (rest : Bytes)
    (s' : ChunkedBodyStream) : Prop where
  chunkBuf : s'.chunkBuf = data
  chunkPos : s'.chunkPos = 0
  runningSig : s'.runningSig = sig
  ahead : s'.ahead = rest
  ending : ending s'.inner = ending s.inner
  finished : s'.finished = s.finished

def Follows (s : ChunkedBodyStream) (fetched : Except Fault (Bool × ChunkedBodyStream)) :
    Except Fault (Bytes × String × Bytes) → Prop
  | .error f => fetched = .error f
  | .ok (data,sig,rest) => ∃ s', fetched = .ok (data ≠ [],s') ∧ Fetched s data sig rest s'

theorem holdsAtLeast_stable (need : ℕ) : Stable (holdsAtLeast need) := by
  intro xs ys b h
  rw [holdsAtLeast] at h ⊢
  split_ifs at h with hlen
  rw [if_pos (by rw [List.length_append]; omega)]

variable {inner : ByteSource} {carry : Bytes} {need : ℕ}

theorem ensureInCarry_ok
    (h : need ≤ (carry ++ contents inner).length) : ∃ carry' inner',
      ensureInCarry need carry inner = .ok (carry',inner') ∧ need ≤ carry'.length ∧
      carry' ++ contents inner' = carry ++ contents inner ∧ ending inner' = ending inner := by
  obtain ⟨carry',inner',hpull,hlook,hahead,hending⟩ :=
    pullUntil_found (holdsAtLeast_stable need) carry inner () (if_pos h)
  refine ⟨carry',inner',by rw [ensureInCarry, hpull],?_,hahead,hending⟩
  by_contra hlt
  rw [holdsAtLeast, if_neg hlt] at hlook
  cases hlook

theorem ensureInCarry_short
    (h : (carry ++ contents inner).length < need) :
    ensureInCarry need carry inner = .error (.error ((ending inner).getD endedMidChunk)) := by
  have hnone : holdsAtLeast need (carry ++ contents inner) = none := if_neg (by omega)
  rw [ensureInCarry, pullUntil_short (holdsAtLeast_stable need) carry inner hnone]
  cases ending inner <;> rfl

theorem fetchPayload_follows (s : ChunkedBodyStream) (size : ℕ) (sig : List Char) (carry : Bytes)
    (inner : ByteSource) (hending : ending inner = ending s.inner) :
    Follows s (s.fetchPayload sign size sig carry inner)
      (nextPayload sign (ending s.inner) s.runningSig size sig (carry ++ contents inner)) := by
  rw [ChunkedBodyStream.fetchPayload, nextPayload]
  by_cases hover : 2^64 ≤ size+2
  · rw [if_pos hover, if_pos hover]
    rfl
  rw [if_neg hover, if_neg hover]
  by_cases hshort : (carry ++ contents inner).length < size+2
  · rw [if_pos hshort, ensureInCarry_short hshort, hending]
    rfl
  rw [if_neg hshort]
  obtain ⟨carry',inner',hensure,hneed,hahead,hending'⟩ :=
    ensureInCarry_ok (Nat.le_of_not_lt hshort)
  have htake : ∀ k ≤ size+2, (carry ++ contents inner).take k = carry'.take k := by
    intro k hk
    rw [← hahead, List.take_append_of_le_length (by omega)]
  have hrest : carry'.drop (size+2) ++ contents inner' = (carry ++ contents inner).drop (size+2) := by
    rw [← hahead, List.drop_append_of_le_length hneed]
  simp only [hensure, slice_eq (Nat.zero_le size) (show size ≤ carry'.length by omega),
    slice_eq (Nat.le_add_right size 2) hneed, slice_eq hneed le_rfl, htake size (by omega),
    htake (size+2) le_rfl, bind, Except.bind, List.drop_zero, List.take_length]
  cases lift ((verifyChunk sign (carry'.take size) s.runningSig sig).mapError
      (fun e => .decode ("aws-chunked: " ++ e))) with
  | error f => rfl
  | ok newRunning =>
    by_cases hterm : (carry'.take (size+2)).drop size = crlf
    · have hsize : (decide (size ≠ 0)) = decide (carry'.take size ≠ []) := by
        have : (carry'.take size).length = size := by rw [List.length_take]; omega
        rw [decide_eq_decide, ← List.length_pos_iff, this, Nat.pos_iff_ne_zero]
      simp only [hterm, ne_eq, not_true_eq_false, if_false, pure, Except.pure]
      exact ⟨_,congrArg (fun more => Except.ok (more,_)) hsize,
        ⟨rfl,rfl,rfl,hrest,hending'.trans hending,rfl⟩⟩
    · simp only [hterm, ne_eq, not_false_eq_true, if_true]
      rfl

theorem fetchChunk_follows (s : ChunkedBodyStream) :
    Follows s (s.fetchChunk sign) (nextChunk sign (ending s.inner) s.runningSig s.ahead) := by
  rw [ChunkedBodyStream.fetchChunk, nextChunk, ChunkedBodyStream.ahead]
  cases hfind : findCrlf (s.carry ++ contents s.inner) with
  | none =>
    rw [pullUntil_short findCrlf_stable _ _ hfind]
    cases ending s.inner <;> rfl
  | some p =>
    obtain ⟨carry,inner,hpull,hlook,hahead,hending⟩ :=
      pullUntil_found findCrlf_stable _ _ p hfind
    obtain ⟨hsplit,hlen,-⟩ := findCrlf_split hlook
    have hneed : p+2 ≤ carry.length := by
      have := congrArg List.length hsplit
      simp only [List.length_append, hlen, crlf, List.length_cons, List.length_nil] at this
      omega
    simp only [hpull, slice_eq (Nat.zero_le p) (show p ≤ carry.length by omega),
      slice_eq hneed le_rfl, bind, Except.bind, List.drop_zero, List.take_length]
    rw [← hahead, List.take_append_of_le_length (show p ≤ carry.length by omega),
      List.drop_append_of_le_length hneed]
    cases lift (parseHeader (carry.take p)) with
    | error f => rfl
    | ok r => exact fetchPayload_follows sign s r.1 r.2 _ inner hending

end Decoder

open Lib.Outcomes

section Chain

variable (sign : String → Bytes → Signature)

/-- The bytes start with a chunk that verifies against the signature before it. -/
def ChunkAt (prev : String) (bytes data : Bytes) (sig : String) (rest : Bytes) : Prop :=
  ∃ line, bytes = line ++ crlf ++ (data ++ crlf ++ rest) ∧
    findCrlf (line ++ crlf) = some line.length ∧
    parseHeader line = .ok (data.length,sig.toList) ∧
    sig = (sign prev data).val ∧ data.length+2 < 2^64

inductive Verified : String → Bytes → List Bytes → String → Bytes → Prop
  | nil (prev : String) (bytes : Bytes) : Verified prev bytes [] prev bytes
  | cons {prev sig last : String} {bytes rest left data : Bytes} {ds : List Bytes}
      (h : ChunkAt sign prev bytes data sig rest) (hdata : data ≠ [])
      (hrest : Verified sig rest ds last left) : Verified prev bytes (data::ds) last left

theorem verifyChunk_eq_ok (chunk : Bytes) (prev : String) (given : List Char) (out : String) :
    verifyChunk sign chunk prev given = .ok out ↔
      out = (sign prev chunk).val ∧ given = out.toList := by
  rw [verifyChunk]
  by_cases h : constantTimeEq (utf8 (sign prev chunk).val) (utf8 (String.ofList given)) = true
  · rw [if_pos h]
    have hgiven := utf8_injective ((constantTimeEq_iff _ _).mp h)
    constructor
    · intro hout
      obtain rfl := Except.ok.inj hout
      rw [hgiven, String.toList_ofList]
      exact ⟨rfl,rfl⟩
    · rintro ⟨rfl,-⟩
      rfl
  · rw [if_neg h]
    constructor
    · intro hout
      cases hout
    · rintro ⟨rfl,rfl⟩
      rw [String.ofList_toList] at h
      exact absurd ((constantTimeEq_iff _ _).mpr rfl) h

theorem lift_verify (r : Except String String) (out : String) :
    lift (r.mapError (fun e => .decode ("aws-chunked: " ++ e))) = .ok out ↔ r = .ok out := by
  cases r <;> simp [lift, Except.mapError]

theorem nextPayload_eq_ok (ends : Option IoError) (prev : String) (size : ℕ) (given : List Char)
    (bytes data : Bytes) (sig : String) (rest : Bytes) :
    nextPayload sign ends prev size given bytes = .ok (data,sig,rest) ↔
      size+2 < 2^64 ∧ data.length = size ∧ bytes = data ++ crlf ++ rest ∧
        sig = (sign prev data).val ∧ given = sig.toList := by
  rw [nextPayload]
  constructor
  · intro h
    split_ifs at h with hover hshort hterm
    · obtain ⟨out,-,h⟩ := bind_eq_ok.mp h
      cases h
    obtain ⟨out,hverify,h⟩ := bind_eq_ok.mp h
    rw [lift_verify, verifyChunk_eq_ok] at hverify
    obtain ⟨rfl,rfl,rfl⟩ : bytes.take size = data ∧ out = sig ∧ bytes.drop (size+2) = rest := by
      simpa [pure, Except.pure] using h
    have hsplit : bytes.take size ++ crlf = bytes.take (size+2) := by
      have htake : (bytes.take (size+2)).take size = bytes.take size := by
        rw [List.take_take, Nat.min_eq_left (by omega)]
      rw [← not_not.mp hterm, ← htake, List.take_append_drop]
    refine ⟨by omega,by rw [List.length_take]; omega,?_,hverify⟩
    rw [hsplit, List.take_append_drop]
  · rintro ⟨hover,rfl,rfl,hsig⟩
    have hterm : ((data ++ crlf ++ rest).take (data.length+2)).drop data.length = crlf := by
      rw [List.take_left' (by simp [crlf]), List.drop_left]
    have htake : (data ++ crlf ++ rest).take data.length = data := by
      rw [List.append_assoc, List.take_left]
    have hdrop : (data ++ crlf ++ rest).drop (data.length+2) = rest :=
      List.drop_left' (by simp [crlf])
    rw [if_neg (by omega), if_neg (by simp [crlf]), htake,
      (lift_verify _ sig).mpr ((verifyChunk_eq_ok sign _ _ _ _).mpr hsig), hdrop]
    simp only [bind, Except.bind, hterm, ne_eq, not_true_eq_false, if_false]
    rfl

theorem lift_eq_ok {α : Type} (r : Except IoError α) (a : α) : lift r = .ok a ↔ r = .ok a := by
  cases r <;> simp [lift, Except.mapError]

theorem nextChunk_eq_ok (ends : Option IoError) (prev : String) (bytes data : Bytes) (sig : String)
    (rest : Bytes) : nextChunk sign ends prev bytes = .ok (data,sig,rest) ↔
      ChunkAt sign prev bytes data sig rest := by
  rw [nextChunk]
  constructor
  · intro h
    cases hfind : findCrlf bytes with
    | none => rw [hfind] at h; cases h
    | some p =>
      rw [hfind] at h
      obtain ⟨⟨size,given⟩,hparse,h⟩ := bind_eq_ok.mp h
      obtain ⟨hover,hlen,hrest,hsig,hgiven⟩ := (nextPayload_eq_ok sign _ _ _ _ _ _ _ _).mp h
      obtain ⟨hsplit,hline,hends⟩ := findCrlf_split hfind
      rw [lift_eq_ok] at hparse
      refine ⟨bytes.take p,?_,by rw [hline]; exact hends,?_,hsig,by omega⟩
      · rw [← hrest]
        exact hsplit
      · rw [hparse, hlen, hgiven]
  · rintro ⟨line,rfl,hends,hparse,hsig,hover⟩
    have hdrop : (line ++ crlf ++ (data ++ crlf ++ rest)).drop (line.length+2) =
        data ++ crlf ++ rest := List.drop_left' (by simp [crlf])
    have htake : (line ++ crlf ++ (data ++ crlf ++ rest)).take line.length = line := by
      rw [List.append_assoc, List.take_left]
    simp only [findCrlf_stable _ _ _ hends, htake, hdrop, hparse]
    exact (nextPayload_eq_ok sign _ _ _ _ _ _ _ _).mpr ⟨hover,rfl,rfl,hsig,rfl⟩

end Chain

section Reading

variable (sign : String → Bytes → Signature)

def ChunkedBodyStream.step (s : ChunkedBodyStream) :
    Except Fault (Turn UInt8 ChunkedBodyStream) :=
  (s.read sign).map (fun r => if r.1 = [] then .done else .yield r.1 r.2)

structure Ready (s : ChunkedBodyStream) (prev : String) (bytes : Bytes) (ends : Option IoError) :
    Prop where
  finished : s.finished = false
  consumed : s.chunkBuf.length ≤ s.chunkPos
  runningSig : s.runningSig = prev
  ahead : s.ahead = bytes
  ending : ending s.inner = ends

theorem ready_new (body : List Frame) (seed : String) :
    Ready (.new body seed) seed (contents (AxumBodyStream.reads body))
      (ending (AxumBodyStream.reads body)) :=
  ⟨rfl,le_rfl,rfl,rfl,rfl⟩

variable {sign} {s : ChunkedBodyStream} {prev : String} {bytes : Bytes} {ends : Option IoError}

section

variable (h : Ready s prev bytes ends)

include h

theorem Ready.read_eq :
    s.read sign = (s.fetchChunk sign).bind (fun r =>
      if r.1 = false then .ok ([],{ r.2 with finished := true })
      else (slice r.2.chunkBuf r.2.chunkPos r.2.chunkBuf.length).map
        (fun payload => (payload,{ r.2 with chunkPos := r.2.chunkBuf.length }))) := by
  rw [ChunkedBodyStream.read, if_neg (by simp [h.finished]), if_pos h.consumed]
  rfl

theorem Ready.follows (sign : String → Bytes → Signature) :
    Follows s (s.fetchChunk sign) (nextChunk sign ends prev bytes) := by
  have := fetchChunk_follows sign s
  rwa [h.ending, h.runningSig, h.ahead] at this

theorem Ready.read_error {f : Fault}
    (hnext : nextChunk sign ends prev bytes = .error f) : s.read sign = .error f := by
  have hf := h.follows sign
  rw [hnext] at hf
  rw [h.read_eq, show s.fetchChunk sign = .error f from hf]
  rfl

theorem Ready.step_error {f : Fault}
    (hnext : nextChunk sign ends prev bytes = .error f) : s.step sign = .error f := by
  rw [ChunkedBodyStream.step, h.read_error hnext]
  rfl

theorem Ready.step_final {sig : String} {rest : Bytes}
    (hnext : nextChunk sign ends prev bytes = .ok ([],sig,rest)) : s.step sign = .ok .done := by
  have hf := h.follows sign
  rw [hnext] at hf
  obtain ⟨s',hfetch,-⟩ := hf
  rw [ChunkedBodyStream.step, h.read_eq, hfetch]
  rfl

theorem Ready.step_chunk {data rest : Bytes} {sig : String}
    (hnext : nextChunk sign ends prev bytes = .ok (data,sig,rest)) (hdata : data ≠ []) :
    ∃ s', s.step sign = .ok (.yield data s') ∧ Ready s' sig rest ends := by
  have hf := h.follows sign
  rw [hnext] at hf
  obtain ⟨s',hfetch,hs'⟩ := hf
  refine ⟨{ s' with chunkPos := s'.chunkBuf.length },?_,?_⟩
  · have hslice : slice s'.chunkBuf s'.chunkPos s'.chunkBuf.length = .ok data := by
      rw [hs'.chunkPos, slice_eq (Nat.zero_le _) le_rfl, List.drop_zero, List.take_length,
        hs'.chunkBuf]
    rw [ChunkedBodyStream.step, h.read_eq, hfetch]
    simp [Except.bind, Except.map, hdata, hslice]
  · exact ⟨hs'.finished.trans h.finished,le_rfl,hs'.runningSig,hs'.ahead,hs'.ending.trans h.ending⟩

end

theorem ChunkAt.shorter {data rest : Bytes} {sig : String}
    (h : ChunkAt sign prev bytes data sig rest) : rest.length < bytes.length := by
  obtain ⟨line,rfl,-⟩ := h
  simp [crlf]
  omega

/-- Draining hands out the chunks of a chain that verified and stops at its end: with
the final chunk, or with the fault of the first chunk that does not verify. -/
theorem Ready.drains (h : Ready s prev bytes ends) (sign : String → Bytes → Signature) :
    ∃ ds sig rest r, Drains (ChunkedBodyStream.step sign) s ds.flatten r ∧
      Verified sign prev bytes ds sig rest ∧
      (r = none → ∃ sig' rest', ChunkAt sign sig rest [] sig' rest') ∧
      ∀ f, r = some f → nextChunk sign ends sig rest = .error f := by
  induction hlen : bytes.length using Nat.strong_induction_on generalizing s prev bytes with
  | _ len ih =>
    cases hnext : nextChunk sign ends prev bytes with
    | error f =>
      refine ⟨[],prev,bytes,some f,.fail _ f (h.step_error hnext),.nil _ _,by simp,?_⟩
      rintro f' hf'
      rw [hnext, Option.some.inj hf']
    | ok next =>
      obtain ⟨data,sig,rest⟩ := next
      have hat := (nextChunk_eq_ok sign _ _ _ _ _ _).mp hnext
      by_cases hdata : data = []
      · subst hdata
        exact ⟨[],prev,bytes,none,.done _ (h.step_final hnext),.nil _ _,
          fun _ => ⟨sig,rest,hat⟩,by simp⟩
      · obtain ⟨s',hstep,hready⟩ := h.step_chunk hnext hdata
        obtain ⟨ds,last,left,r,hdrains,hverified,hend⟩ :=
          ih rest.length (hlen ▸ hat.shorter) hready rfl
        exact ⟨data::ds,last,left,r,.yield _ s' data _ r hstep hdrains,
          .cons hat hdata hverified,hend⟩

theorem Ready.drains_chain (h : Ready s prev bytes ends) {ds : List Bytes} {sig : String}
    {rest : Bytes} {r : Option Fault} (hverified : Verified sign prev bytes ds sig rest)
    (hend : ∀ s', Ready s' sig rest ends → Drains (ChunkedBodyStream.step sign) s' [] r) :
    Drains (ChunkedBodyStream.step sign) s ds.flatten r := by
  induction hverified generalizing s with
  | nil prev bytes => exact hend s h
  | cons hat hdata _ ih =>
    obtain ⟨s',hstep,hready⟩ := h.step_chunk ((nextChunk_eq_ok sign _ _ _ _ _ _).mpr hat) hdata
    exact .yield _ s' _ _ _ hstep (ih hready hend)

end Reading

/-- A payload with digits that spell its length. No buffer is longer than half the
address space. -/
structure Chunk where
  sizeHex : List Char
  data : Bytes
  written : sizeHex ≠ []
  spells : radixDigits 0 sizeHex = some data.length
  fits : data.length < 2^63

def Chunk.of (data : Bytes) (fits : data.length < 2^63) : Chunk :=
  ⟨hexOf data.length,data,hexOf_ne_nil _,radixDigits_hexOf _ (by omega),fits⟩

def Chunk.wire (c : Chunk) (sig : Signature) : Bytes :=
  header c.sizeHex sig ++ crlf ++ (c.data ++ crlf)

section RoundTrip

variable (sign : String → Bytes → Signature)

def Chained : String → List (Chunk × Signature) → Prop
  | _,[] => True
  | prev,(c,sig)::rest => sig = sign prev c.data ∧ Chained sig.val rest

def encoded (chunks : List (Chunk × Signature)) : Bytes := chunks.flatMap (fun c => c.1.wire c.2)

theorem chunkAt_wire (prev : String) (c : Chunk) (rest : Bytes) :
    ChunkAt sign prev (c.wire (sign prev c.data) ++ rest) c.data (sign prev c.data).val rest := by
  have hline := findCrlf_line (header_no_cr c.spells (sign prev c.data)) []
  rw [List.append_nil] at hline
  have := c.fits
  exact ⟨header c.sizeHex (sign prev c.data),by simp [Chunk.wire],hline,
    parseHeader_header c.written c.spells _,rfl,by omega⟩

theorem verified_encoded (prev : String) (chunks : List (Chunk × Signature))
    (last : Chunk × Signature) (hdata : ∀ c ∈ chunks, c.1.data ≠ [])
    (hchained : Chained sign prev (chunks ++ [last])) :
    ∃ sig, Verified sign prev (encoded (chunks ++ [last])) (chunks.map (·.1.data)) sig
      (encoded [last]) ∧ last.2 = sign sig last.1.data := by
  induction chunks generalizing prev with
  | nil => exact ⟨prev,.nil _ _,hchained.1⟩
  | cons c chunks ih =>
    obtain ⟨c,sig⟩ := c
    obtain ⟨rfl,hrest⟩ := hchained
    obtain ⟨sig',hverified,hlast⟩ :=
      ih (sign prev c.data).val (fun c hc => hdata c (List.mem_cons_of_mem _ hc)) hrest
    exact ⟨sig',.cons (chunkAt_wire sign prev c _) (hdata _ List.mem_cons_self) hverified,hlast⟩

/-- Correctly signed chunks are handed out whole for every framing, and whatever the
body and its frames, the bytes handed out are the payloads of chunks at its start that
verified in the order of the chain; at the end of the stream the final chunk has, too. -/
theorem chunked_body_drains (body : List Frame) (seed : String) :
    (∀ (chunks : List (Chunk × Signature)) (last : Chunk × Signature),
      (∀ c ∈ chunks, c.1.data ≠ []) → last.1.data = [] → Chained sign seed (chunks ++ [last]) →
      contents (AxumBodyStream.reads body) = encoded (chunks ++ [last]) →
      Drains (ChunkedBodyStream.step sign) (.new body seed) (chunks.flatMap (·.1.data)) none) ∧
    ∃ ds sig rest r, Drains (ChunkedBodyStream.step sign) (.new body seed) ds.flatten r ∧
      Verified sign seed (contents (AxumBodyStream.reads body)) ds sig rest ∧
      (r = none → ∃ sig' rest', ChunkAt sign sig rest [] sig' rest') := by
  have hready := ready_new body seed
  constructor
  · intro chunks last hdata hempty hchained hbody
    obtain ⟨sig,hverified,hlast⟩ := verified_encoded sign seed chunks last hdata hchained
    have hfinal := chunkAt_wire sign sig last.1 []
    rw [← hlast, List.append_nil, hempty] at hfinal
    rw [hbody] at hready
    rw [List.flatMap_def]
    apply hready.drains_chain hverified
    intro s hs
    refine .done _ (hs.step_final ((nextChunk_eq_ok sign _ _ _ _ (last.2).val []).mpr ?_))
    simpa [encoded] using hfinal
  · obtain ⟨ds,sig,rest,r,hdrains,hverified,hfinal,-⟩ := hready.drains sign
    exact ⟨ds,sig,rest,r,hdrains,hverified,hfinal⟩

end RoundTrip

def zeros : Signature := ⟨String.ofList (List.replicate 64 '0'),by simp; decide⟩

/-- One byte and the final chunk, each under the same signature. -/
def byteChunks : List (Chunk × Signature) := [(.of [7] (by decide),zeros),(.of [] (by decide),zeros)]

theorem split_header_drains :
    contents (AxumBodyStream.reads [.data ((encoded byteChunks).take 5),.trailers,
      .data ((encoded byteChunks).drop 5)]) = encoded byteChunks ∧
    Drains (ChunkedBodyStream.step (fun _ _ => zeros)) (.new [.data ((encoded byteChunks).take 5),
      .trailers,.data ((encoded byteChunks).drop 5)] "seed") [7] none := by
  have hbody : contents (AxumBodyStream.reads [.data ((encoded byteChunks).take 5),.trailers,
      .data ((encoded byteChunks).drop 5)]) = encoded byteChunks := by decide +kernel
  exact ⟨hbody,(chunked_body_drains (fun _ _ => zeros) _ "seed").1
    [(.of [7] (by decide),zeros)] (.of [] (by decide),zeros) (by simp [Chunk.of]) rfl
    ⟨rfl,rfl,trivial⟩ hbody⟩

section Panics

variable (sign : String → Bytes → Signature)

/-- The next header line declares a size to which two cannot be added. -/
def DeclaresHuge (bytes : Bytes) : Prop :=
  ∃ p size sig, findCrlf bytes = some p ∧ parseHeader (bytes.take p) = .ok (size,sig) ∧
    2^64 ≤ size+2

def Fault.Panics (f : Fault) : Prop := ∀ e, f ≠ .error e

theorem lift_error {α : Type} {r : Except IoError α} {f : Fault} (h : lift r = .error f) :
    ¬f.Panics := by
  cases r with
  | ok a => cases h
  | error e =>
    obtain rfl := Except.error.inj h
    exact fun hp => hp e rfl

theorem nextPayload_panics (ends : Option IoError) (prev : String) (size : ℕ) (given : List Char)
    (bytes : Bytes) : (∃ f, nextPayload sign ends prev size given bytes = .error f ∧ f.Panics) ↔
      2^64 ≤ size+2 := by
  rw [nextPayload]
  by_cases hover : 2^64 ≤ size+2
  · rw [if_pos hover]
    exact ⟨fun _ => hover,fun _ => ⟨.overflow,rfl,fun e h => by cases h⟩⟩
  · refine ⟨?_,fun h => absurd h hover⟩
    rintro ⟨f,hf,hpanics⟩
    rw [if_neg hover] at hf
    by_cases hshort : bytes.length < size+2
    · rw [if_pos hshort] at hf
      exact absurd (Except.error.inj hf).symm (hpanics _)
    · rw [if_neg hshort] at hf
      cases hverify : lift ((verifyChunk sign (bytes.take size) prev given).mapError
          (fun e => .decode ("aws-chunked: " ++ e))) with
      | error f' =>
        rw [hverify] at hf
        obtain rfl := Except.error.inj hf
        exact absurd hpanics (lift_error hverify)
      | ok newRunning =>
        rw [hverify] at hf
        simp only [bind, Except.bind] at hf
        split_ifs at hf
        · exact absurd (Except.error.inj hf).symm (hpanics _)
        · cases hf

theorem nextChunk_panics (ends : Option IoError) (prev : String) (bytes : Bytes) :
    (∃ f, nextChunk sign ends prev bytes = .error f ∧ f.Panics) ↔ DeclaresHuge bytes := by
  rw [nextChunk]
  cases hfind : findCrlf bytes with
  | none =>
    constructor
    · rintro ⟨f,hf,hpanics⟩
      exact absurd (Except.error.inj hf).symm (hpanics _)
    · rintro ⟨p,size,sig,hp,-⟩
      rw [hfind] at hp
      cases hp
  | some p =>
    cases hparse : parseHeader (bytes.take p) with
    | error e =>
      simp only [hparse, lift, Except.mapError, bind, Except.bind]
      constructor
      · rintro ⟨f,hf,hpanics⟩
        exact absurd (Except.error.inj hf).symm (hpanics e)
      · rintro ⟨p',size,sig,hp',hparse',-⟩
        obtain rfl := Option.some.inj (hfind.symm.trans hp')
        rw [hparse] at hparse'
        cases hparse'
    | ok r =>
      obtain ⟨size,sig⟩ := r
      simp only [hparse, lift, Except.mapError, bind, Except.bind, nextPayload_panics]
      refine ⟨fun h => ⟨p,size,sig,hfind,hparse,h⟩,?_⟩
      rintro ⟨p',size',sig',hp',hparse',h⟩
      obtain rfl := Option.some.inj (hfind.symm.trans hp')
      obtain ⟨rfl,rfl⟩ := Prod.mk.inj (Except.ok.inj (hparse.symm.trans hparse'))
      exact h

theorem Ready.read_eq_error {s : ChunkedBodyStream} {prev : String} {bytes : Bytes}
    {ends : Option IoError} (h : Ready s prev bytes ends) (f : Fault) :
    s.read sign = .error f ↔ nextChunk sign ends prev bytes = .error f := by
  refine ⟨fun hread => ?_,h.read_error⟩
  have hstep : s.step sign = .error f := by rw [ChunkedBodyStream.step, hread]; rfl
  cases hnext : nextChunk sign ends prev bytes with
  | error f' => rw [Except.error.inj ((h.step_error hnext).symm.trans hstep)]
  | ok next =>
    obtain ⟨data,sig,rest⟩ := next
    by_cases hdata : data = []
    · subst hdata
      rw [h.step_final hnext] at hstep
      cases hstep
    · obtain ⟨s',hyield,-⟩ := h.step_chunk hnext hdata
      rw [hyield] at hstep
      cases hstep

theorem read_of_rest (s : ChunkedBodyStream)
    (h : ¬(s.finished = false ∧ s.chunkBuf.length ≤ s.chunkPos)) :
    ∃ r, s.read sign = .ok r := by
  rw [ChunkedBodyStream.read]
  by_cases hfinished : s.finished = true
  · rw [if_pos hfinished]
    exact ⟨_,rfl⟩
  · have hrest : ¬s.chunkBuf.length ≤ s.chunkPos := fun hle => h ⟨by simpa using hfinished,hle⟩
    rw [if_neg hfinished, if_neg hrest]
    simp only [bind, Except.bind, Bool.true_eq_false, if_false,
      slice_eq (show s.chunkPos ≤ s.chunkBuf.length by omega) le_rfl]
    exact ⟨_,rfl⟩

/-- In every state a read panics exactly when it is to fetch a chunk and the header
ahead declares a size that two cannot be added to. A body is read without a panic
exactly when no such header follows a chain of chunks that verified. -/
theorem read_never_panics_iff :
    (∀ s : ChunkedBodyStream, (∀ f, s.read sign = .error f → ¬f.Panics) ↔
      ¬(s.finished = false ∧ s.chunkBuf.length ≤ s.chunkPos ∧ DeclaresHuge s.ahead)) ∧
    ∀ (body : List Frame) (seed : String),
      (∀ xs f, Drains (ChunkedBodyStream.step sign) (.new body seed) xs (some f) → ¬f.Panics) ↔
      ∀ ds sig rest, Verified sign seed (contents (AxumBodyStream.reads body)) ds sig rest →
        ¬DeclaresHuge rest := by
  constructor
  · intro s
    by_cases hfetch : s.finished = false ∧ s.chunkBuf.length ≤ s.chunkPos
    · have hready : Ready s s.runningSig s.ahead (ending s.inner) :=
        ⟨hfetch.1,hfetch.2,rfl,rfl,rfl⟩
      simp only [hready.read_eq_error, hfetch, true_and,
        ← nextChunk_panics sign (ending s.inner) s.runningSig, not_exists, not_and]
    · refine ⟨fun _ h => hfetch ⟨h.1,h.2.1⟩,fun _ f hf => ?_⟩
      obtain ⟨r,hr⟩ := read_of_rest sign s hfetch
      rw [hr] at hf
      cases hf
  · intro body seed
    have hready := ready_new body seed
    constructor
    · intro h ds sig rest hverified hhuge
      obtain ⟨f,hnext,hpanics⟩ := (nextChunk_panics sign _ sig rest).mpr hhuge
      exact h _ f (hready.drains_chain hverified
        fun s' hs' => .fail _ f (hs'.step_error hnext)) hpanics
    · intro h xs f hdrains hpanics
      obtain ⟨ds,sig,rest,r,hdrains',hverified,-,hfault⟩ := hready.drains sign
      obtain ⟨-,rfl⟩ := hdrains.unique hdrains'
      exact h ds sig rest hverified ((nextChunk_panics sign _ sig rest).mp
        ⟨f,hfault f rfl,hpanics⟩)

end Panics

/-- The smallest size to which two cannot be added, in the first header of a body. -/
theorem huge_size_panics : (ChunkedBodyStream.read (fun _ _ => zeros)
    (.new [.data (utf8 "fffffffffffffffe;chunk-signature=x\r\n")] "seed")).map Prod.fst =
      .error .overflow ∧ Fault.overflow.Panics := by
  exact ⟨by decide +kernel,fun e h => by cases h⟩

end Openlake.ChunkedBody
