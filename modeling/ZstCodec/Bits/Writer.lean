import ZstCodec.Bytes

/-! # Writing bits

Bits are appended lowest first. Fewer than eight wait in the accumulator between two additions, and a field holds at
most 48. `close` adds the final mark, a single one, for a reader that comes from the end. -/

namespace ZstCodec

structure BitWriter where
  out : ByteArray := .empty
  bits : UInt64 := 0
  count : UInt64 := 0

namespace BitWriter

def drain (out : ByteArray) (bits count : UInt64) : Nat → BitWriter
  | 0 => { out, bits, count }
  | n + 1 =>
    if count < 8 then { out, bits, count }
    else drain (out.push bits.toUInt8) (bits >>> 8) (count - 8) n

@[inline] def add (w : BitWriter) (v : UInt64) (n : UInt64) : BitWriter :=
  let field := v &&& ((1 <<< n) - 1)
  drain w.out (w.bits ||| (field <<< w.count)) (w.count + n) 8

@[inline] def addNat (w : BitWriter) (v n : Nat) : BitWriter := w.add v.toUInt64 n.toUInt64

def flush (w : BitWriter) : ByteArray :=
  if w.count == 0 then w.out else w.out.push w.bits.toUInt8

def close (w : BitWriter) : ByteArray := (w.add 1 1).flush

end BitWriter

end ZstCodec
