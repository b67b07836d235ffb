import Openlake.Lib.ByteCodec

/-!
# The 64-bit xxHash of a byte string

The hash with seed zero: stripes of four lanes, then the remaining words and
bytes, then the final mix. Words are little-endian.
-/

set_option autoImplicit false

namespace Lib.Xxh64
open Lib.ByteCodec

def prime1 : UInt64 := 0x9e3779b185ebca87

def prime2 : UInt64 := 0xc2b2ae3d27d4eb4f

def prime3 : UInt64 := 0x165667b19e3779f9

def prime4 : UInt64 := 0x85ebca77c2b2ae63

def prime5 : UInt64 := 0x27d4eb2f165667c5

def rotl (x r : UInt64) : UInt64 := x <<< r ||| x >>> (64-r)

def round (acc input : UInt64) : UInt64 := rotl (acc+input*prime2) 31*prime1

def lane (bytes : List UInt8) (i : ℕ) : UInt64 := UInt64.ofNat (leValue (slice bytes (8*i) (8*i+8)))

def stripes : ℕ → UInt64 × UInt64 × UInt64 × UInt64 → List UInt8 → UInt64 × UInt64 × UInt64 × UInt64
  | 0,v,_ => v
  | m+1,(v1,v2,v3,v4),bytes =>
    stripes m (round v1 (lane bytes 0),round v2 (lane bytes 1),round v3 (lane bytes 2),
      round v4 (lane bytes 3)) (bytes.drop 32)

def mergeRound (acc val : UInt64) : UInt64 := (acc ^^^ round 0 val)*prime1+prime4

def longStart (bytes : List UInt8) : UInt64 :=
  let (v1,v2,v3,v4) := stripes (bytes.length/32) (prime1+prime2,prime2,0,0-prime1) bytes
  let h := rotl v1 1+rotl v2 7+rotl v3 12+rotl v4 18
  mergeRound (mergeRound (mergeRound (mergeRound h v1) v2) v3) v4

def tailWords : ℕ → UInt64 → List UInt8 → UInt64
  | 0,h,_ => h
  | m+1,h,bytes => tailWords m (rotl (h ^^^ round 0 (lane bytes 0)) 27*prime1+prime4) (bytes.drop 8)

def tailBytes (h : UInt64) (bytes : List UInt8) : UInt64 :=
  bytes.foldl (fun h b => rotl (h ^^^ b.toUInt64*prime5) 11*prime1) h

def tailHalf (h : UInt64) (bytes : List UInt8) : UInt64 :=
  if bytes.length < 4 then tailBytes h bytes
  else tailBytes (rotl (h ^^^ UInt64.ofNat (leValue (slice bytes 0 4))*prime1) 23*prime2+prime3)
    (bytes.drop 4)

def avalanche (h : UInt64) : UInt64 :=
  let h := (h ^^^ h >>> 33)*prime2
  let h := (h ^^^ h >>> 29)*prime3
  h ^^^ h >>> 32

def xxh64 (bytes : List UInt8) : UInt64 :=
  let h := (if bytes.length < 32 then prime5 else longStart bytes)+UInt64.ofNat bytes.length
  let rest := bytes.drop (bytes.length/32*32)
  avalanche (tailHalf (tailWords (rest.length/8) h rest) (rest.drop (rest.length/8*8)))

example : xxh64 [] = 0xef46db3751d8e999 := by decide

end Lib.Xxh64
