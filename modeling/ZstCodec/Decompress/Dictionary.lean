import ZstCodec.Dictionary.Format
import ZstCodec.Block.Decode

/-! # Dictionaries prepared for decoding

The decoder takes all bytes of a dictionary as content, tables included: offsets count from the end, so what stands in
front does no harm. -/

namespace ZstCodec.Decompress

structure Dictionary where
  content : ByteArray := .empty
  id : Nat := 0
  memory : Block.Memory := {}

def Dictionary.none : Dictionary := {}

def Dictionary.prepare (b : ByteArray) (type : ZstCodec.Dictionary.ContentType) :
    Except Fault Dictionary := do
  if type = .raw then return { content := b }
  if ! ZstCodec.Dictionary.isMarked b then
    if type = .full then throw .dictionaryCorrupted
    return { content := b }
  let e ← ZstCodec.Dictionary.Entropy.read b
  return {
    content := b
    id := ZstCodec.Dictionary.identifier b
    memory := {
      literals := some (e.literals.decoder .inPairs)
      sequences := some {
        litLength := e.litLength.decoder
        offset := e.offset.decoder
        matchLength := e.matchLength.decoder }
      reps := e.reps } }

end ZstCodec.Decompress
