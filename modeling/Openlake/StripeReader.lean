import Openlake.StripeWriter

/-!
# Reading a striped object

A part is read stripe by stripe: each refill pulls one shard unit from every
source that is still alive, drops the sources that fail or end short, and
decodes the stripe; the decoded shards are then served one per read. The parts
of an object are read one after the other, each opened when the one before is
drained.

In `MultiPartEcStream` the parts already opened are gone from `parts`, and
`startStripe` is where the next part to open starts: the seek target for the
first part and stripe 0 afterwards. The state a failed read leaves behind is
not kept, since nothing reads on after an error.
-/

set_option autoImplicit false

namespace Openlake.StripeReader
open Openlake.Types Ec Streams Lib.Chunks

structure EcReadStream where
  ec : Erasure
  sources : List (Option ByteSource)
  sourceCarries : List Bytes
  stripesRemaining : ℕ
  stripeUnit : ℕ
  totalRemaining : ℕ
  decoded : List Bytes
  decodeShard : ℕ
  shardPos : ℕ
  bucket : String
  key : String

structure Pulled where
  source : Option ByteSource
  carry : Bytes
  shard : Option Bytes

def pullShard (unit : ℕ) (src : Option ByteSource) (carry : Bytes) : Pulled :=
  match src with
  | none => ⟨none,carry,none⟩
  | some src =>
    match gather unit [] carry src with
    | .full buf carry rest => ⟨some rest,carry,some buf⟩
    | .ended _ => ⟨none,[],none⟩
    | .failed _ => ⟨none,[],none⟩

def decodeError (e : String) : IoError := .invalidArgument ("EC decode: " ++ e)

namespace EcReadStream

variable (rs : ReedSolomon)

def refill (s : EcReadStream) : Except IoError EcReadStream :=
  let results := List.zipWith (pullShard s.stripeUnit) s.sources s.sourceCarries
  let shardOpts := results.map Pulled.shard
  if shardOpts.countP Option.isSome < s.ec.dataShards then
    .error (.fileNotFound s.bucket (s.key ++ "/part.1"))
  else do
    let decoded ← (decodeStripe rs s.ec shardOpts s.stripeUnit).mapError decodeError
    return { s with sources := results.map Pulled.source, sourceCarries := results.map Pulled.carry,
                    decoded := decoded, decodeShard := 0, shardPos := 0,
                    stripesRemaining := s.stripesRemaining-1 }

def stripeRemainingBytes (s : EcReadStream) : ℕ :=
  if s.decoded.length ≤ s.decodeShard then 0
  else (s.decoded.getD s.decodeShard []).length-s.shardPos +
    ((s.decoded.drop (s.decodeShard+1)).map List.length).sum

def serve (s : EcReadStream) : Bytes × EcReadStream :=
  let shard := s.decoded.getD s.decodeShard []
  let served := min (shard.length-s.shardPos) s.totalRemaining
  let frame := (shard.drop s.shardPos).take served
  let s' := { s with totalRemaining := s.totalRemaining-served }
  if s.shardPos+served = shard.length then
    (frame,{ s' with decodeShard := s.decodeShard+1, shardPos := 0 })
  else (frame,{ s' with shardPos := s.shardPos+served })

def read (s : EcReadStream) : Except IoError (Bytes × EcReadStream) :=
  if s.totalRemaining = 0 then .ok ([],s)
  else if s.stripeRemainingBytes = 0 then
    if s.stripesRemaining = 0 then .ok ([],s)
    else do
      let s ← s.refill rs
      return s.serve
  else .ok s.serve

def step (s : EcReadStream) : Except IoError (Turn UInt8 EcReadStream) :=
  match s.read rs with
  | .error e => .error e
  | .ok (chunk,s') => if chunk.isEmpty then .ok .done else .ok (.yield chunk s')

end EcReadStream

abbrev ShardReader := (volume path : String) → (offset length : ℕ) → Except IoError ByteSource

def partStream (sources : List (Option ByteSource)) (bucket key : String)
    (actualSize blockSize stripeUnit : ℕ) (ec : Erasure) (startStripe : ℕ) : EcReadStream :=
  { ec := ec, sources := sources, sourceCarries := List.replicate sources.length [],
    stripesRemaining := stripeCount actualSize blockSize-startStripe, stripeUnit := stripeUnit,
    totalRemaining := actualSize-startStripe*blockSize, decoded := [], decodeShard := 0,
    shardPos := 0, bucket := bucket, key := key }

def openEcPartStream (backends : List ShardReader) (bucket key partPath : String)
    (actualSize blockSize stripeUnit : ℕ) (ec : Erasure) (startStripe : ℕ) :
    Except StorageError EcReadStream :=
  let shardOff := startStripe*stripeUnit
  let shardLen := (stripeCount actualSize blockSize-startStripe)*stripeUnit
  let sources := backends.map (fun b => (b bucket partPath shardOff shardLen).toOption)
  if sources.countP Option.isSome < ec.dataShards then .error (.objectNotFound bucket key)
  else .ok (partStream sources bucket key actualSize blockSize stripeUnit ec startStripe)

structure MultiPartEcStream where
  backends : List ShardReader
  bucket : String
  key : String
  dataDir : String
  parts : List ObjectPartInfo
  startStripe : ℕ
  blockSize : ℕ
  stripeUnit : ℕ
  ec : Erasure
  current : Option EcReadStream := none

def partLen (p : ObjectPartInfo) : ℕ := p.actualSize.toUInt64.toNat

def partPath (key dataDir : String) (number : Int32) : String :=
  key ++ "/" ++ dataDir ++ "/part." ++ toString number

def advanceError (bucket path : String) : StorageError → IoError
  | .objectNotFound _ _ => .fileNotFound bucket path
  | .io e => e
  | other => .invalidArgument other.display

namespace MultiPartEcStream

variable (rs : ReedSolomon)

def advance (m : MultiPartEcStream) : Except IoError (Option (MultiPartEcStream × EcReadStream)) :=
  match m.current with
  | some cur => .ok (some (m,cur))
  | none =>
    match m.parts with
    | [] => .ok none
    | p::parts =>
      let path := partPath m.key m.dataDir p.number
      match openEcPartStream m.backends m.bucket m.key path (partLen p) m.blockSize m.stripeUnit m.ec
          m.startStripe with
      | .error e => .error (advanceError m.bucket path e)
      | .ok cur => .ok (some ({ m with parts := parts, startStripe := 0, current := some cur },cur))

/-- One turn of the loop in `read`. -/
def step (m : MultiPartEcStream) : Except IoError (Turn UInt8 MultiPartEcStream) := do
  match ← m.advance with
  | none => return .done
  | some (m,cur) =>
    let (chunk,cur) ← cur.read rs
    if chunk.isEmpty then return .again { m with current := none }
    else return .yield chunk { m with current := some cur }

end MultiPartEcStream

end Openlake.StripeReader
