/-! # Adler-32

Two sums modulo the largest prime below `2 ^ 16`: of the bytes, and of the running sums of the bytes. -/

namespace ZstCodec

structure Adler32 where
  low : Nat := 1
  high : Nat := 0
  deriving DecidableEq, Repr

namespace Adler32

def modulus : Nat := 65521

def push (a : Adler32) (x : UInt8) : Adler32 :=
  let low := (a.low + x.toNat) % modulus
  { low, high := (a.high + low) % modulus }

def append (a : Adler32) (b : ByteArray) : Adler32 := b.foldl push a

def value (a : Adler32) : Nat := a.high * 65536 + a.low

def bytes (a : Adler32) : ByteArray :=
  ByteArray.mk #[(a.high / 256).toUInt8, (a.high % 256).toUInt8, (a.low / 256).toUInt8, (a.low % 256).toUInt8]

end Adler32

end ZstCodec
