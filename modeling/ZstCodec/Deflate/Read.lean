import ZstCodec.Deflate.Store
import ZstCodec.Failure

/-! # Reading deflated data

Reads streams of stored blocks: a header of two bytes, the blocks, and the checksum of the content. What follows is left
alone. -/

namespace ZstCodec.Deflate

/-- The header names the method, a window that is not too large, and no dictionary. -/
def headerOk (b : ByteArray) : Bool :=
  2 ≤ b.size && (natAt b 0 * 256 + natAt b 1) % 31 = 0 && natAt b 0 % 16 = 8 && natAt b 0 / 16 ≤ 7 && natAt b 1 / 32 % 2 = 0

/-- Read blocks from `i` on: the content, and the place behind the last block. -/
def readBlocks (b : ByteArray) (i : Nat) (out : ByteArray) : Nat → Except Failure (ByteArray × Nat)
  | 0 => .error .deflate
  | fuel + 1 =>
    if b.size < i + headerSize then .error .deflate
    else
      let first := natAt b i
      let size := le16 b (i + 1)
      if first / 2 % 4 ≠ 0 || size + le16 b (i + 3) ≠ 65535 || b.size < i + headerSize + size then .error .deflate
      else
        let stop := i + headerSize + size
        let out := out ++ slice b (i + headerSize) stop
        if first % 2 = 1 then .ok (out, stop) else readBlocks b stop out fuel

def content (b : ByteArray) : Except Failure ByteArray := do
  if ! headerOk b then throw .deflate
  let (out, i) ← readBlocks b 2 .empty b.size
  if bytesEq (slice b i (i + 4)) (({} : Adler32).append out).bytes then return out else throw .deflate

end ZstCodec.Deflate
