import Openlake.RecordBytes
import Openlake.ChunkedBody
import Openlake.StoredBytes
import Openlake.StripeRoundTrip

/-!
# Uploads with a signed body

A put stops reading at the declared length. A chunked body is then accepted with
whatever follows that many bytes, and a digest of the whole body, which is compared
at its end, is not looked at.
-/

set_option autoImplicit false

namespace Openlake.VerifiedUploads
open Openlake.Types XlMeta Promote Streams Ec GetObject Multipart PutObject ChunkHeader ChunkedBody
open StoredBytes PartEncoding Lib.Chunks

/-- A panic ends the call without an answer; an error of its own stands for it. -/
def answer : Fault → IoError
  | .error e => e
  | .overflow => .io .other "attempt to add with overflow"
  | .outOfRange => .io .other "range end index out of range for slice"

section Chunked

variable (sign : String → Bytes → Signature)

def chunkReads : ℕ → ChunkedBodyStream → ByteSource
  | 0,_ => []
  | fuel+1,s =>
    match s.step sign with
    | .error f => [.error (answer f)]
    | .ok .done => []
    | .ok (.yield payload s') => .ok payload::chunkReads fuel s'
    | .ok (.again s') => chunkReads fuel s'

/-- What the reads of a chunked body return. A chunk takes some of the bytes, so
there are fewer reads than bytes. -/
def BodySource.chunked (body : List Frame) (seedSignature : String) : ByteSource :=
  chunkReads sign ((contents (AxumBodyStream.reads body)).length+1) (.new body seedSignature)

theorem chunkReads_drains {s : ChunkedBodyStream} {prev : String} {bytes : Bytes}
    {ends : Option IoError} (h : Ready s prev bytes ends) (fuel : ℕ)
    (hfuel : bytes.length < fuel) :
    ∃ r, Drains (ChunkedBodyStream.step sign) s (contents (chunkReads sign fuel s)) r ∧
      ending (chunkReads sign fuel s) = r.map answer := by
  induction fuel generalizing s prev bytes with
  | zero => omega
  | succ fuel ih =>
    rw [chunkReads]
    cases hnext : nextChunk sign ends prev bytes with
    | error f =>
      rw [h.step_error hnext]
      exact ⟨some f,.fail _ f (h.step_error hnext),rfl⟩
    | ok next =>
      obtain ⟨data,sig,rest⟩ := next
      by_cases hdata : data = []
      · subst hdata
        rw [h.step_final hnext]
        exact ⟨none,.done _ (h.step_final hnext),rfl⟩
      · obtain ⟨s',hstep,hready⟩ := h.step_chunk hnext hdata
        have hshorter := ((nextChunk_eq_ok sign _ _ _ _ _ _).mp hnext).shorter
        obtain ⟨r,hdrains,hending⟩ := ih hready (by omega)
        rw [hstep]
        simp only [contents, ending, List.isEmpty_iff, hdata, if_false]
        exact ⟨r,.yield _ s' data _ r hstep hdrains,hending⟩

/-- The bytes are a chain of chunks that verified, with its final chunk, and the
payloads are `x`. -/
def Whole (prev : String) (bytes x : Bytes) : Prop :=
  ∃ ds sig rest sig' rest', Verified sign prev bytes ds sig rest ∧
    ChunkAt sign sig rest [] sig' rest' ∧ ds.flatten = x

theorem whole_iff (body : List Frame) (seed : String) (x : Bytes) :
    Whole sign seed (contents (AxumBodyStream.reads body)) x ↔
      contents (BodySource.chunked sign body seed) = x ∧
        ending (BodySource.chunked sign body seed) = none := by
  have hready := ready_new body seed
  obtain ⟨r,hdrains,hending⟩ := chunkReads_drains sign hready _ (Nat.lt_succ_self _)
  rw [BodySource.chunked, hending, Option.map_eq_none_iff]
  constructor
  · rintro ⟨ds,sig,rest,sig',rest',hverified,hfinal,rfl⟩
    exact hdrains.unique (hready.drains_chain hverified fun s hs =>
      .done _ (hs.step_final ((nextChunk_eq_ok sign _ _ _ _ _ _).mpr hfinal)))
  · rintro ⟨rfl,rfl⟩
    obtain ⟨ds,sig,rest,r,hdrains',hverified,hfinal,-⟩ := hready.drains sign
    obtain ⟨hbytes,rfl⟩ := hdrains.unique hdrains'
    obtain ⟨sig',rest',hat⟩ := hfinal rfl
    exact ⟨ds,sig,rest,sig',rest',hverified,hat,hbytes.symm⟩

variable {n : ℕ} (c : MetaCodec) (sidecars : Rmp ObjectPartInfo) (md5 : Bytes → Bytes)
  (rs : ReedSolomon) (bucket key : String)

theorem take_whole_iff {body : List Frame} {seed : String} {x : Bytes} {size : ℕ}
    (hwhole : Whole sign seed (contents (AxumBodyStream.reads body)) x)
    (hsize : size ≤ (contents (BodySource.chunked sign body seed)).length) :
    (contents (BodySource.chunked sign body seed)).take size = x ↔ x.length = size := by
  rw [((whole_iff sign body seed x).mp hwhole).1] at hsize ⊢
  rw [List.take_eq_self_iff]
  omega

end Chunked

def zeroDigest : Bytes → Bytes := fun _ => List.replicate 16 0

/-- The byte `a` for two disks, one for data and one for parity. -/
def bytePut (src : ByteSource) : PutCall 2 where
  size := 1
  src := src
  contentType := none
  modTimeMs := 1
  bucketMeta := .ok ⟨1,.unversioned,1,false⟩
  freshVersionId := ""
  parityShards := 1
  inlineThreshold := 131072
  dataDir := ""
  stagingId := "s"
  lock := .ok ()
  fence := .ok ()
  create _ := none
  writeAll _ _ := none
  finish _ := none
  rename _ := none
  cleanup _ := none

def byteRecord (i : ℕ) : FileInfo :=
  Records.indexed ((bytePut []).fileInfo "b" "k" (VersionIds.hexLower (zeroDigest []))
    VersionIds.nullVersionId 1 (some [[97]])) (bytePut []).erasure i

def byteCodec : MetaCodec :=
  RecordBytes.tableCodec [RecordBytes.recordsOf [byteRecord 0],RecordBytes.recordsOf [byteRecord 1]]
    Lib.Xxh64.xxh64 (by decide +kernel)

def unsigned : String → Bytes → Signature := fun _ _ => zeros

def dataChunk : Chunk × Signature := (.of [97] (by decide),zeros)

theorem length_nil_lt : ([] : Bytes).length < 2^63 := by decide

def finalChunk : Chunk × Signature := (.of [] length_nil_lt,zeros)

def wholeBody : List Frame := [.data (encoded [dataChunk,finalChunk])]

def cutBody : List Frame := [.data (encoded [dataChunk])]

def bytePutOf (body : List Frame) : PutCall 2 := bytePut (BodySource.chunked unsigned body "seed")

def putOn (u : PutCall 2) : Except StorageError ObjectInfo :=
  Lib.Effects.value ((put byteCodec zeroDigest StripeRoundTrip.mirror "b" "k" u).run
    (fun _ => RecordBytes.emptyBucket))

theorem byte_stored : (putOn (bytePut [.ok [97]])).toOption.isSome := by
  decide +kernel

theorem putOn_first {src rest : ByteSource} (h : src = .ok [97]::rest) :
    (putOn (bytePut src)).toOption.isSome := by
  have hdrain : drainInlinePayload zeroDigest src 1 =
      .ok ([[97]],VersionIds.hexLower (List.replicate 16 0)) := by
    have hrest : drainFrames 1 1 rest = .ok [] := by
      rw [drainFrames.eq_def, if_neg (Nat.lt_irrefl 1)]
    rw [h, drainInlinePayload, drainFrames, if_pos Nat.one_pos]
    simp [hrest, zeroDigest]
  have hsmall : ∀ src, (bytePut src).size.toNat ≤ (bytePut src).inlineThreshold := by
    intro src
    change (1 : UInt64).toNat ≤ 131072
    decide
  have hinline : ∀ versionId, putInline byteCodec zeroDigest "b" "k" (bytePut src) versionId =
      putInline byteCodec zeroDigest "b" "k" (bytePut [.ok [97]]) versionId := by
    intro versionId
    rw [putInline, putInline, show drainInlinePayload zeroDigest (bytePut src).src
      (bytePut src).size.toNat = _ from hdrain]
    rfl
  rw [putOn, put]
  simp only [if_pos (hsmall src), hinline]
  exact byte_stored

theorem contents_frame {bytes : Bytes} (h : bytes ≠ []) :
    contents (AxumBodyStream.reads [.data bytes]) = bytes := by
  simp [AxumBodyStream.reads, h, contents]

theorem encoded_ne_nil (chunks : List (Chunk × Signature)) : encoded (dataChunk::chunks) ≠ [] := by
  have hat := chunkAt_wire unsigned "seed" dataChunk.1 (encoded chunks)
  exact List.ne_nil_of_length_pos (Nat.zero_lt_of_lt hat.shorter)

theorem chunked_first {body : List Frame} {rest : Bytes}
    (hbody : contents (AxumBodyStream.reads body) = dataChunk.1.wire zeros ++ rest) :
    ∃ fuel s, BodySource.chunked unsigned body "seed" = .ok [97]::chunkReads unsigned (fuel+1) s ∧
      Ready s zeros.val rest (ending (AxumBodyStream.reads body)) := by
  have hat : ChunkAt unsigned "seed" (dataChunk.1.wire zeros ++ rest) [97] zeros.val rest :=
    chunkAt_wire unsigned "seed" dataChunk.1 rest
  have hready := ready_new body "seed"
  rw [hbody] at hready
  obtain ⟨s,hstep,hs⟩ := hready.step_chunk ((nextChunk_eq_ok unsigned _ _ _ _ _ _).mpr hat)
    (by decide)
  obtain ⟨fuel,hfuel⟩ := Nat.exists_eq_add_of_lt hat.shorter
  refine ⟨rest.length+fuel,s,?_,hs⟩
  rw [BodySource.chunked, hbody, hfuel, chunkReads, hstep]

section Digest

variable (sha256 : Bytes → Bytes)

/-- A declared digest: hex digits of either case. -/
abbrev HexSha256 := Signature

/-- The bytes are hashed as they pass, and the digest is compared at their end. -/
def Sha256VerifyStream.reads (expected : Bytes) (hashed : Bytes) : ByteSource → ByteSource
  | [] =>
    if constantTimeEq (utf8 (VersionIds.hexLower (sha256 hashed))) expected then []
    else [.error (.decode "sha256 mismatch")]
  | .error e::rest => .error e::reads expected hashed rest
  | .ok chunk::rest => .ok chunk::reads expected (hashed ++ chunk) rest

def BodySource.hexSha (body : List Frame) (declared : HexSha256) : ByteSource :=
  Sha256VerifyStream.reads sha256 (utf8 (asciiLower declared.val)) [] (AxumBodyStream.reads body)

theorem contents_verify (expected hashed : Bytes) (src : ByteSource) :
    contents (Sha256VerifyStream.reads sha256 expected hashed src) = contents src := by
  induction src generalizing hashed with
  | nil =>
    rw [Sha256VerifyStream.reads]
    split_ifs <;> rfl
  | cons r src ih =>
    cases r with
    | error e => rfl
    | ok chunk => simp only [Sha256VerifyStream.reads, contents, ih]

def HasDigest (declared : HexSha256) (x : Bytes) : Prop :=
  VersionIds.hexLower (sha256 x) = asciiLower declared.val

variable {n : ℕ} (c : MetaCodec) (sidecars : Rmp ObjectPartInfo) (md5 : Bytes → Bytes)
  (rs : ReedSolomon) (bucket key : String)

def ones : Bytes → Bytes := fun _ => List.replicate 32 1

def digestPut : PutCall 2 := bytePut (BodySource.hexSha ones [.data [97]] zeros)

end Digest

end Openlake.VerifiedUploads
