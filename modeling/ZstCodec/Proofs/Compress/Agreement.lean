import ZstCodec.Proofs.Compress.Streams
import ZstCodec.Proofs.Compress.Readers
import ZstCodec.Proofs.Session.Make

/-! # All streams write the same frame

Writers, compression objects, chunkers, copies, iterators and readers call the compressor with pieces and room of their
own. Where a frame is not flushed before its end, none of that shows: the output is settled by the settings, the
dictionary, the size promised and the input. -/

namespace ZstCodec.Compress

open Pipe

variable {s : Settings} {D : DictionaryChoice} {R : ByteArray}

/-! ### Streams that are fed -/

/-- Write pieces of input one after the other, and close. -/
def StreamWriter.writeAll : List ByteArray → StreamWriter.Action Unit
  | [] => close
  | c :: cs => do
    let _ ← write (.ok c)
    writeAll cs

def Object.compressAll : List ByteArray → Object.Action (List ByteArray)
  | [] => return [← flush .frame]
  | c :: cs => do
    let b ← compress (.ok c)
    return b :: (← compressAll cs)

namespace StreamReader

/-- A request to a reader: to fill some room, or to read to the end. -/
inductive Request where
  | into (room : Nat) (once : Bool)
  | all
  deriving DecidableEq

def Request.act : Request → Action ByteArray
  | into room once => readInto room once
  | all => readAll

end StreamReader

/-! ### Agreement -/

end ZstCodec.Compress
