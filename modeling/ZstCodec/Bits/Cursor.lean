import ZstCodec.Bytes
import ZstCodec.Fault

/-! # Reading bits from the end

Entropy-coded streams are read backwards: the highest set bit of the last byte is the final mark, and the fields stand
below it. A cursor is the number of bits below it.

* **Within the stream** a field of `n` bits under the cursor `c` is the bits `c - n … c - 1`.
* **Past the start** (`c < n`) of a damaged stream, the value is taken cyclically from the first eight bytes, so that
  all readers agree; the cursor goes negative, which callers test. -/

namespace ZstCodec

structure BitCursor where
  bytes : ByteArray
  first : UInt64
  pos : Int

namespace BitCursor

def start (b : ByteArray) : Except Fault BitCursor :=
  if b.size = 0 then .error .sourceSizeWrong
  else
    let last := natAt b (b.size - 1)
    if last = 0 then .error (if 8 ≤ b.size then .generic else .corrupt)
    else .ok { bytes := b, first := word64 b 0, pos := (8 * (b.size - 1) + highBit last : Nat) }

@[inline] def field (b : ByteArray) (lo n : Nat) : UInt64 :=
  (word64 b (lo / 8) >>> (lo % 8).toUInt64) &&& ((1 <<< n.toUInt64) - 1)

@[inline] def peek (c : BitCursor) (n : Nat) : Nat :=
  if (n : Int) ≤ c.pos then (field c.bytes (c.pos.toNat - n) n).toNat
  else
    ((c.first >>> ((c.pos - n).emod 64).toNat.toUInt64) &&& ((1 <<< n.toUInt64) - 1)).toNat

/-- As `peek` for at least one bit; past the start the missing low bits are zeros. -/
@[inline] def peekHigh (c : BitCursor) (n : Nat) : Nat :=
  if (n : Int) ≤ c.pos then (field c.bytes (c.pos.toNat - n) n).toNat
  else ((c.first <<< ((-c.pos).emod 64).toNat.toUInt64) >>> (64 - n).toUInt64).toNat

@[inline] def skip (c : BitCursor) (n : Nat) : BitCursor := { c with pos := c.pos - n }

def atEnd (c : BitCursor) : Bool := c.pos == 0

def overrun (c : BitCursor) : Bool := c.pos < 0

end BitCursor

end ZstCodec
