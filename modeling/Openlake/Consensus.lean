import Openlake.Types
import Openlake.Lib.ByteCodec
import Openlake.Lib.Tally

/-!
# Read-side metadata consensus

`readWithConsensus` takes the per-disk `read_version` results of one erasure set
through four votes: the error gate, parity, etag and the decode-contract hash.
Each vote tallies its ballots in a hash map whose iteration order is a parameter.
-/

set_option autoImplicit false

namespace Openlake.Consensus
open Openlake.Types Lib.ByteCodec Lib.Tally

inductive ErrorTag where
  | fileNotFound | fileAlreadyExists | fileVersionNotFound | volumeNotFound | volumeExists
  | volumeNotEmpty | corruptMetadata | unsupportedMetadataVersion | bitrotCheckFailed
  | invalidArgument | unsupported | encode | decode | io
  deriving DecidableEq, Repr

def errorTag : IoError → ErrorTag
  | .fileNotFound .. => .fileNotFound
  | .fileAlreadyExists .. => .fileAlreadyExists
  | .fileVersionNotFound .. => .fileVersionNotFound
  | .volumeNotFound _ => .volumeNotFound
  | .volumeExists _ => .volumeExists
  | .volumeNotEmpty _ => .volumeNotEmpty
  | .corruptMetadata .. => .corruptMetadata
  | .unsupportedMetadataVersion .. => .unsupportedMetadataVersion
  | .bitrotCheckFailed .. => .bitrotCheckFailed
  | .invalidArgument _ => .invalidArgument
  | .unsupported _ => .unsupported
  | .encode _ => .encode
  | .decode _ => .decode
  | .io .. => .io

def livenessNoise : IoError → Bool
  | .io .connectionRefused _ => true
  | .io .timedOut _ => true
  | _ => false

def mapObjectMissing (bucket key : String) : IoError → StorageError
  | .fileNotFound .. => .objectNotFound bucket key
  | .fileVersionNotFound _ _ versionId => .versionNotFound bucket key versionId
  | .volumeNotFound _ => .bucketNotFound bucket
  | other => .io other

def erasureIsValid (ei : ErasureInfo) : Bool :=
  let n := ei.dataBlocks.toNat+ei.parityBlocks.toNat
  ei.dataBlocks ≠ 0 && ei.parityBlocks ≤ ei.dataBlocks && ei.distribution.length = n &&
    ei.index ≠ 0 && ei.index.toNat ≤ n

def partContract (p : ObjectPartInfo) : Bytes :=
  leBytes 4 p.number.toUInt32.toNat ++ leBytes 8 p.size.toUInt64.toNat

def erasureContract (fi : FileInfo) : Bytes :=
  if !fi.deleted && fi.size ≠ 0 then
    [fi.erasure.dataBlocks,fi.erasure.parityBlocks] ++ leBytes 4 fi.erasure.blockSize.toNat ++
      fi.erasure.distribution
  else []

def etagOf (fi : FileInfo) : Option String := BTreeMap.get etagMetaKey fi.metadata

def decodeContract (fi : FileInfo) : Bytes :=
  utf8 fi.versionId ++ leBytes 8 fi.modTimeMs.toNat ++ ((etagOf fi).elim [] utf8) ++
    [fi.deleted.toUInt8] ++ fi.parts.flatMap partContract ++ erasureContract fi

section Votes

variable {H : Type} [DecidableEq H]

structure HashOrders (H : Type) where
  errors : IterOrder (ErrorTag × ℕ × IoError)
  parities : IterOrder (UInt8 × ℕ)
  etags : IterOrder (String × ℕ)
  contracts : IterOrder (H × ℕ × ℕ × FileInfo)

def dominantError (o : IterOrder (ErrorTag × ℕ × IoError)) (errs : List (Option IoError)) :
    ℕ × Option IoError :=
  let counts := tally errorTag firstStep (errs.reduceOption.filter (fun e => !livenessNoise e)) []
  match maxByKey (fun e => e.2.1) (o.arrange counts) with
  | some (_,c,e) => (c,some e)
  | none => (0,none)

def parityVote (n : ℕ) (fi : FileInfo) : UInt8 :=
  if fi.deleted || fi.size = 0 then UInt8.ofNat (n/2) else fi.erasure.parityBlocks

def readQuorum (n : ℕ) (p : UInt8) : ℕ :=
  if p.toNat ≤ n then n-p.toNat else n+2^64-p.toNat

def commonParity (o : IterOrder (UInt8 × ℕ)) (metas : List (Option FileInfo)) (n : ℕ) :
    Option UInt8 :=
  let counts := tally (parityVote n) countStep
    (metas.reduceOption.filter (fun m => erasureIsValid m.erasure)) []
  (scanMax (fun e => readQuorum n e.1 ≤ e.2) Prod.snd none (o.arrange counts)).map Prod.fst

def commonEtag (o : IterOrder (String × ℕ)) (metas : List (Option FileInfo)) (quorum : ℕ) :
    Option String :=
  let counts := tally id countStep
    ((metas.reduceOption.filterMap etagOf).filter (fun e => e ≠ "")) []
  match maxByKey Prod.snd (o.arrange counts) with
  | none => none
  | some (winner,count) => if quorum ≤ count then some winner else none

def recordEtagMatches (fi : FileInfo) (etag : String) : Bool := etagOf fi = some etag

def decodeContractHash (blake3 : Bytes → H) (fi : FileInfo) : H := blake3 (decodeContract fi)

def contractBallots (metas : List (Option FileInfo)) (etag : String) : List (ℕ × FileInfo) :=
  metas.zipIdx.filterMap (fun m => m.1.bind (fun fi =>
    if recordEtagMatches fi etag then some (m.2,fi) else none))

def voteRecords (o : HashOrders H) (blake3 : Bytes → H) (bucket key : String)
    (metas : List (Option FileInfo)) (n : ℕ) : Except StorageError (ℕ × FileInfo) :=
  match commonParity o.parities metas n with
  | none => .error (.insufficientOnlineDrives bucket key
      "no parity value reached its quorum across the set")
  | some p =>
    let dataBlocks := readQuorum n p
    match commonEtag o.etags metas dataBlocks with
    | none => .error (.inconsistentMeta bucket key
        ("no etag reached quorum " ++ toString dataBlocks ++ " (have " ++
          toString metas.reduceOption.length ++ " valid records)"))
    | some etag =>
      let hashCounts := tally (fun m => decodeContractHash blake3 m.2) firstStep
        (contractBallots metas etag) []
      match maxByKey (fun e => e.2.1) (o.contracts.arrange hashCounts) with
      | none => .error (.inconsistentMeta bucket key "no records matched the winning etag")
      | some (_,winnerCount,winner) =>
        if winnerCount < dataBlocks then
          .error (.inconsistentMeta bucket key
            ("decode-contract hash reached only " ++ toString winnerCount ++ "/" ++
              toString dataBlocks ++ " disks"))
        else .ok winner

def metasOf (results : List (Except IoError FileInfo)) : List (Option FileInfo) :=
  results.map Except.toOption

def errsOf (results : List (Except IoError FileInfo)) : List (Option IoError) :=
  results.map (fun r => match r with | .error e => some e | .ok _ => none)

def half (n : ℕ) : ℕ := max (n/2) 1

def readWithConsensus (o : HashOrders H) (blake3 : Bytes → H) (bucket key : String)
    (results : List (Except IoError FileInfo)) : Except StorageError (ℕ × FileInfo) :=
  let n := results.length
  match dominantError o.errors (errsOf results) with
  | (count,some e) =>
    if half n ≤ count then .error (mapObjectMissing bucket key e)
    else voteRecords o blake3 bucket key (metasOf results) n
  | (_,none) => voteRecords o blake3 bucket key (metasOf results) n

end Votes

end Openlake.Consensus
