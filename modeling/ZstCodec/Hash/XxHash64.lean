import ZstCodec.Bytes

/-! # The 64-bit content checksum

Four lanes eat thirty-two bytes a round; what is left over is eaten by eights, by a four and by single bytes, and the
result is avalanched. Frames store its low 32 bits, and the long-distance matcher splits it between bucket and checksum. -/

namespace ZstCodec.XxHash64

def prime1 : UInt64 := 0x9E3779B185EBCA87
def prime2 : UInt64 := 0xC2B2AE3D27D4EB4F
def prime3 : UInt64 := 0x165667B19E3779F9
def prime4 : UInt64 := 0x85EBCA77C2B2AE63
def prime5 : UInt64 := 0x27D4EB2F165667C5

@[inline] def rotl (x : UInt64) (r : UInt64) : UInt64 := (x <<< r) ||| (x >>> (64 - r))

@[inline] def round (acc input : UInt64) : UInt64 := rotl (acc + input * prime2) 31 * prime1

@[inline] def mergeRound (h lane : UInt64) : UInt64 := (h ^^^ round 0 lane) * prime1 + prime4

def stripes (b : ByteArray) (p : Nat) (v1 v2 v3 v4 : UInt64) :
    Nat → UInt64 × UInt64 × UInt64 × UInt64
  | 0 => (v1, v2, v3, v4)
  | n + 1 =>
    stripes b (p + 32) (round v1 (word64 b p)) (round v2 (word64 b (p + 8)))
      (round v3 (word64 b (p + 16))) (round v4 (word64 b (p + 24))) n

def eights (b : ByteArray) (p : Nat) (h : UInt64) : Nat → UInt64
  | 0 => h
  | n + 1 => eights b (p + 8) (rotl (h ^^^ round 0 (word64 b p)) 27 * prime1 + prime4) n

def ones (b : ByteArray) (p : Nat) (h : UInt64) : Nat → UInt64
  | 0 => h
  | n + 1 => ones b (p + 1) (rotl (h ^^^ ((byteAt b p).toUInt64 * prime5)) 11 * prime1) n

def avalanche (h : UInt64) : UInt64 :=
  let h := (h ^^^ (h >>> 33)) * prime2
  let h := (h ^^^ (h >>> 29)) * prime3
  h ^^^ (h >>> 32)

def finish (b : ByteArray) (p stop : Nat) (h : UInt64) : UInt64 :=
  let n8 := (stop - p) / 8
  let h := eights b p h n8
  let p := p + 8 * n8
  if p + 4 ≤ stop then
    let h := rotl (h ^^^ ((word32 b p).toUInt64 * prime1)) 23 * prime2 + prime3
    avalanche (ones b (p + 4) h (stop - p - 4))
  else avalanche (ones b p h (stop - p))

def range (b : ByteArray) (i j : Nat) : UInt64 :=
  let len := j - i
  if 32 ≤ len then
    let n := len / 32
    let (v1, v2, v3, v4) := stripes b i (prime1 + prime2) prime2 0 (0 - prime1) n
    let h := rotl v1 1 + rotl v2 7 + rotl v3 12 + rotl v4 18
    let h := mergeRound (mergeRound (mergeRound (mergeRound h v1) v2) v3) v4
    finish b (i + 32 * n) j (h + len.toUInt64)
  else finish b i j (prime5 + len.toUInt64)

def hash (b : ByteArray) : UInt64 := range b 0 b.size

end ZstCodec.XxHash64

namespace ZstCodec

/-- The four checksum bytes of a frame, as a number: the low half of the content hash. -/
def contentChecksum (b : ByteArray) : Nat := (XxHash64.hash b).toNat % 2 ^ 32

end ZstCodec
