import ZstCodec.Bytes

/-! # Hashes of short byte strings

The next `width` bytes, three to eight, are multiplied by an odd constant modulo 2⁶⁴ and the highest bits
of the product are kept. A salt may be mixed in before. -/

namespace ZstCodec.Match

/-- A hash function. -/
structure Hasher where
  shift : UInt64
  factor : UInt64
  salt : UInt64
  drop : UInt64
  deriving Repr

namespace Hasher

def factorOf (width : Nat) : UInt64 :=
  if width = 3 then 506832829
  else if width = 5 then 889523592379
  else if width = 6 then 227718039650203
  else if width = 7 then 58295818150454627
  else if width = 8 then 0xCF1BBCDCB7A56463
  else 2654435761

/-- The hash of `width` bytes into `bits` bits. A salt of the widths up to four has 32 bits. -/
def ofWidth (width bits : Nat) (salt : UInt64) : Hasher :=
  { shift := (64 - 8 * width).toUInt64
    factor := factorOf width
    salt := if width ≤ 4 then salt <<< 32 else salt
    drop := (64 - bits).toUInt64 }

@[inline] def hashAt (h : Hasher) (b : ByteArray) (i : Nat) : Nat :=
  ((((word64 b i) <<< h.shift) * h.factor ^^^ h.salt) >>> h.drop).toNat

end Hasher

end ZstCodec.Match
