import ZstCodec.Bytes

/-! # CRC-32

The reflected cyclic redundancy check with polynomial `0xEDB88320`, by the usual byte table. -/

namespace ZstCodec.Crc32

def step (c : UInt32) : UInt32 :=
  if (c &&& 1) == 1 then (0xEDB88320 : UInt32) ^^^ (c >>> 1) else c >>> 1

def entry (n : Nat) : UInt32 := (List.range 8).foldl (fun c _ => step c) n.toUInt32

def table : Array UInt32 := ((List.range 256).map entry).toArray

@[inline] def feed (c : UInt32) (b : UInt8) : UInt32 :=
  (table[((c ^^^ b.toUInt32) &&& 0xFF).toNat]?.getD 0) ^^^ (c >>> 8)

def feedMany (b : ByteArray) (i : Nat) (c : UInt32) : Nat → UInt32
  | 0 => c
  | n + 1 => feedMany b (i + 1) (feed c (byteAt b i)) n

def checksum (b : ByteArray) : UInt32 := feedMany b 0 0xFFFFFFFF b.size ^^^ 0xFFFFFFFF

end ZstCodec.Crc32
