import ZstCodec.Session.Script
import ZstCodec.Session.Training

/-! # Single operations

Operations that need no session of their own: compressing and decompressing at once, asking about frames, parameters and
dictionaries, and the constants of the interface. -/

namespace ZstCodec.Session

open Tuning

def alone {α : Type} (w : World) (m : SessionM α) : Except Failure α := (Id.run (m.run.run w)).1

/-! ### Compressing and decompressing -/

def compress (data : Value) (a : Args) : SessionM ByteArray := do
  a.check [] ["level"]
  let x ← makeCompressor a
  (compressAtOnce x data.toBytes).2

def compressWith (data : Value) (compressor : Args) : SessionM (ByteArray × Compress.Progress) := do
  let x ← makeCompressor compressor
  let (x, result) := compressAtOnce x data.toBytes
  return (← result, x.progress)

def decompress (data : Value) (a : Args) : SessionM ByteArray := do
  a.check [] ["max_output_size"]
  let s ← makeDecompressor []
  (decompressAtOnce (← get).backend s (("data", data) :: a)).2

def decompressWith (data : Value) (decompressor a : Args) : SessionM ByteArray := do
  let s ← makeDecompressor decompressor
  a.check [] ["max_output_size", "read_across_frames", "allow_extra_data"]
  (decompressAtOnce (← get).backend s (("data", data) :: a)).2

def decompressLinks (frames : Value) (decompressor : Args) : SessionM ByteArray := do
  let s ← makeDecompressor decompressor
  (decompressChain (← get).backend s frames).2

/-! ### Frames -/

def frameContentSize (data : Value) : Except Failure Int := do Frame.queryContentSize (← data.toBytes)

def frameHeaderSize (data : Value) : Except Failure Nat := do Frame.queryHeaderSize (← data.toBytes)

def frameParameters (data : Value) : Except Failure Frame.Parameters := do Frame.queryParameters (← data.toBytes)

/-! ### Parameters and processors -/

/-- What a system says about its processors. -/
structure Processors where
  /-- The answer of the count, which may be nothing; `none` if there is no such count. -/
  count : Option (Option Int) := none
  table : Option Int := none
  deriving DecidableEq, Repr

def Processors.number (p : Processors) : Int :=
  match p.count with
  | some n => n.getD 0
  | none => p.table.getD 0

def parameters (a : Args) : SessionM (List (String × Int)) := do
  match ← resolveSettings (.map a) with
  | some s => return showSettings s
  | none => throw .wrongType

/-! ### Dictionaries -/

/-- What there is to know about a dictionary. -/
structure DictionaryFacts where
  bytes : ByteArray
  id : Nat
  k : Value
  d : Value

def HeldDictionary.facts (d : HeldDictionary) : DictionaryFacts :=
  { bytes := d.bytes, id := ZstCodec.Dictionary.identifier d.bytes, k := d.k, d := d.d }

def dictionaryFacts (v : Value) : SessionM DictionaryFacts := do
  match ← resolveDictionary v with
  | some d => return d.facts
  | none => throw .noAttribute

def trainedFacts (size samples : Value) (a : Args) : SessionM DictionaryFacts := return (← trainDictionary size samples a).facts

/-! ### Constants -/

def constants : List (String × Value) := [
  ("BLOCKSIZELOG_MAX", .int 17), ("BLOCKSIZE_MAX", .int Block.maxSize),
  ("CHAINLOG_MAX", .int chainLogMax), ("CHAINLOG_MIN", .int chainLogMin),
  ("COMPRESSION_RECOMMENDED_INPUT_SIZE", .int Compress.recommendedInput),
  ("COMPRESSION_RECOMMENDED_OUTPUT_SIZE", .int Compress.recommendedRoom),
  ("COMPRESSOBJ_FLUSH_BLOCK", .int 1), ("COMPRESSOBJ_FLUSH_FINISH", .int 0),
  ("CONTENTSIZE_ERROR", .int (2 ^ 64 - 2)), ("CONTENTSIZE_UNKNOWN", .int (2 ^ 64 - 1)),
  ("DECOMPRESSION_RECOMMENDED_INPUT_SIZE", .int Decompress.recommendedInput),
  ("DECOMPRESSION_RECOMMENDED_OUTPUT_SIZE", .int Decompress.recommendedRoom),
  ("DICT_TYPE_AUTO", .int 0), ("DICT_TYPE_FULLDICT", .int 2), ("DICT_TYPE_RAWCONTENT", .int 1),
  ("FLUSH_BLOCK", .int 0), ("FLUSH_FRAME", .int 1), ("FORMAT_ZSTD1", .int 0), ("FORMAT_ZSTD1_MAGICLESS", .int 1),
  ("FRAME_HEADER", .ofBytes (ByteArray.mk #[0x28, 0xb5, 0x2f, 0xfd])),
  ("HASHLOG_MAX", .int hashLogMax), ("HASHLOG_MIN", .int hashLogMin),
  ("LDM_BUCKETSIZELOG_MAX", .int 8), ("LDM_MINMATCH_MAX", .int 4096), ("LDM_MINMATCH_MIN", .int 4),
  ("MAGIC_NUMBER", .int 0xFD2FB528), ("MAX_COMPRESSION_LEVEL", .int maxLevel),
  ("MINMATCH_MAX", .int minMatchMax), ("MINMATCH_MIN", .int minMatchMin),
  ("SEARCHLENGTH_MAX", .int minMatchMax), ("SEARCHLENGTH_MIN", .int minMatchMin),
  ("SEARCHLOG_MAX", .int searchLogMax), ("SEARCHLOG_MIN", .int searchLogMin),
  ("STRATEGY_BTLAZY2", .int 6), ("STRATEGY_BTOPT", .int 7), ("STRATEGY_BTULTRA", .int 8),
  ("STRATEGY_BTULTRA2", .int 9), ("STRATEGY_DFAST", .int 2), ("STRATEGY_FAST", .int 1),
  ("STRATEGY_GREEDY", .int 3), ("STRATEGY_LAZY", .int 4), ("STRATEGY_LAZY2", .int 5),
  ("TARGETLENGTH_MAX", .int targetLengthMax), ("TARGETLENGTH_MIN", .int 0),
  ("WINDOWLOG_MAX", .int windowLogMax), ("WINDOWLOG_MIN", .int windowLogMin),
  ("ZSTD_VERSION", .list [.int 1, .int 5, .int 6]), ("__version__", .text "0.24.0.dev0"),
  ("backend_features", .list (Backend.portable.features.map .text)),
  ("backend_features_c", .list (Backend.native.features.map .text))]

end ZstCodec.Session
