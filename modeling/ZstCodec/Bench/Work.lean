import ZstCodec.Session.Script
import ZstCodec.Deflate.Read

/-! # The work of benchmarks

Every piece of work makes the codecs it needs and puts all chunks through them. Only whether it fails is of interest. -/

namespace ZstCodec.Bench

open Session

/-- What there is to work on. -/
structure Job where
  chunks : List ByteArray
  settings : Settings := {}
  options : Args := []
  deflateLevel : Int := 0
  threads : Value := .none
  sizes : List Nat := []

abbrev Work := Job → SessionM Unit

/-! ### Objects -/

def forget : SessionM Unit := modify fun w => { w with log := #[] }

def ask (i : Nat) (method : String) (args : Args) : SessionM Reply := do callMethod i (← thingAt i) { method, args }

def askObject (i : Nat) (method : String) (args : Args) : SessionM Nat := do
  match ← ask i method args with
  | .made t => addThing t
  | _ => throw .wrongType

def askBytes (i : Nat) (method : String) (args : Args) : SessionM ByteArray := do
  match ← ask i method args with
  | .value (.bytes _ b) => return b
  | _ => throw .wrongType

def tell (i : Nat) (method : String) (args : Args) : SessionM Unit := do
  let _ ← ask i method args

def newCompressor (j : Job) (dict : Option ByteArray) : SessionM Nat := do
  let d ← match dict with
    | none => pure none
    | some b => some <$> (dictionaryOf [("data", .ofBytes b)] : Except Failure HeldDictionary)
  addThing (.compressor (← compressorOf (← get).processors [] d (some j.settings)))

def newDecompressor (j : Job) (dict : Option ByteArray) : SessionM Nat := do
  match dict with
  | none => addThing (.decompressor (← makeDecompressor j.options))
  | some b =>
    let d ← (dictionaryOf [("data", .ofBytes b)] : Except Failure HeldDictionary)
    if (j.options.lookup "dict_data").isSome then throw .wrongType
    addThing (.decompressor (← decompressorOf j.options (some d)))

def exhaust (i : Nat) : SessionM ByteArray := do
  let (items, failure) ← runItems i [] itemLimit
  if let some e := failure then throw e
  return items.foldl (fun out v => match v with | .bytes _ b => out ++ b | _ => out) .empty

def generated (i : Nat) (method : String) (args : Args) : SessionM ByteArray := do exhaust (← askObject i method args)

def dataArg (b : ByteArray) : Args := [("data", .ofBytes b)]

def memory : Value := .device { writes := true, tag := "" }

def sizeArg (known : Bool) (b : ByteArray) : Args := if known then [("size", .ofNat b.size)] else []

def within (i : Nat) (body : SessionM Unit) : SessionM Unit := do
  tell i "__enter__" []
  body
  tell i "__exit__" []
  forget

def readPieces (i : Nat) : Nat → SessionM Unit
  | 0 => return
  | fuel + 1 => do
    let b ← askBytes i "read" [("size", .int 16384)]
    if b.size ≠ 0 then readPieces i fuel

def firstChunk (j : Job) : SessionM ByteArray :=
  match j.chunks with
  | [] => throw .indexOutOfRange
  | b :: _ => return b

def withLast (chunks : List ByteArray) : List (ByteArray × ByteArray) := chunks.zip (chunks.drop 1)

/-! ### Compressing chunk by chunk -/

def compressOneUse : Work := fun j => j.chunks.forM fun b => do
  tell (← newCompressor j none) "compress" (dataArg b)

def compressEach (one : Nat → ByteArray → SessionM Unit) : Work := fun j => do
  let x ← newCompressor j none
  j.chunks.forM (one x)

def compressReuse : Work := compressEach fun x b => tell x "compress" (dataArg b)

def chunkBuffer (chunks : List ByteArray) : SessionM Thing := do
  let (_, segments) := chunks.foldl
    (fun (acc : Nat × ByteArray) b => (acc.1 + b.size, putLe (putLe acc.2 acc.1 8) b.size 8)) (0, .empty)
  let data := chunks.foldl (· ++ ·) .empty
  return .buffer (← (Segments.Buffer.ofWritten data segments : Except Failure _))

def manyArg (inBuffer : Bool) (chunks : List ByteArray) : SessionM Value := do
  if inBuffer then
    let i ← addThing (← chunkBuffer chunks)
    modify (·.name "chunks" i)
    return .named "chunks"
  else return .list (chunks.map .ofBytes)

def compressMany (inBuffer : Bool) : Work := fun j => do
  let data ← manyArg inBuffer j.chunks
  let x ← newCompressor j none
  tell x "multi_compress_to_buffer" [("data", data), ("threads", j.threads)]

def readAll (x : Nat) (b : ByteArray) : SessionM Unit := do
  let r ← askObject x "stream_reader" [("source", .ofBytes b)]
  within r (readPieces r itemLimit)

def writeAll (known : Bool) (x : Nat) (b : ByteArray) : SessionM Unit := do
  let w ← askObject x "stream_writer" (("writer", memory) :: sizeArg known b)
  within w (tell w "write" (dataArg b))

def iterate (known : Bool) (x : Nat) (b : ByteArray) : SessionM ByteArray :=
  generated x "read_to_iter" (("reader", .ofBytes b) :: sizeArg known b)

def useObject (known : Bool) (x : Nat) (b : ByteArray) : SessionM Unit := do
  let o ← askObject x "compressobj" (sizeArg known b)
  tell o "compress" (dataArg b)
  tell o "flush" []

def compressReader : Work := compressEach readAll

def compressWriter (known : Bool) : Work := compressEach (writeAll known)

def compressIterator (known : Bool) : Work := compressEach fun x b => discard (iterate known x b)

def compressObject (known : Bool) : Work := compressEach (useObject known)

def compressChunker (known : Bool) : Work := compressEach fun x b => do
  let k ← askObject x "chunker" (sizeArg known b)
  let _ ← generated k "compress" (dataArg b)
  let _ ← generated k "finish" []

/-! ### Deflating -/

def checkDeflateLevel (level : Int) : Except Failure Unit := if level = 0 then .ok () else .error .deflate

def deflateEach : Work := fun j => do
  if ! j.chunks.isEmpty then checkDeflateLevel j.deflateLevel

def deflateStream : Work := fun j => checkDeflateLevel j.deflateLevel

/-! ### Compressing to a stream -/

def compressStreamWriter : Work := fun j => do
  let x ← newCompressor j none
  let w ← askObject x "stream_writer" [("writer", memory)]
  within w (j.chunks.forM fun b => do
    tell w "write" (dataArg b)
    tell w "flush" [])

def compressStreamObject : Work := fun j => do
  let x ← newCompressor j none
  let o ← askObject x "compressobj" []
  j.chunks.forM fun b => do
    tell o "compress" (dataArg b)
    tell o "flush" [("flush_mode", .int 1)]

def compressStreamChunker : Work := fun j => do
  let x ← newCompressor j none
  let k ← askObject x "chunker" []
  j.chunks.forM fun b => do
    let _ ← generated k "compress" (dataArg b)
  let _ ← generated k "finish" []

/-! ### Compressing with the chunk before as dictionary -/

def compressChained (one : Nat → ByteArray → SessionM Unit) : Work := fun j => do
  one (← newCompressor j none) (← firstChunk j)
  (withLast j.chunks).forM fun (last, b) => do one (← newCompressor j (some last)) b

def compressChainedAtOnce : Work := compressChained fun x b => tell x "compress" (dataArg b)

def compressChainedWriter (known : Bool) : Work := compressChained (writeAll known)

def compressChainedIterator (known : Bool) : Work := compressChained fun x b => discard (iterate known x b)

def compressChainedObject (known : Bool) : Work := compressChained (useObject known)

/-! ### Decompressing chunk by chunk -/

def decompressOneUse : Work := fun j => j.chunks.forM fun b => do
  tell (← newDecompressor j none) "decompress" (dataArg b)

def decompressEach (one : Nat → ByteArray → SessionM Unit) : Work := fun j => do
  let x ← newDecompressor j none
  j.chunks.forM (one x)

def decompressReuse : Work := decompressEach fun x b => tell x "decompress" (dataArg b)

def inflateEach : Work := fun j => j.chunks.forM fun b => do
  let _ ← (Deflate.content b : Except Failure ByteArray)

def writtenSizes (sizes : List Nat) : ByteArray := sizes.foldl (fun out n => putLe out n 8) .empty

def decompressMany (inBuffer sized : Bool) : Work := fun j => do
  let frames ← manyArg inBuffer j.chunks
  let x ← newDecompressor j none
  tell x "multi_decompress_to_buffer" ([("frames", frames), ("threads", j.threads)]
    ++ if sized then [("decompressed_sizes", .ofBytes (writtenSizes j.sizes))] else [])

def decompressReader : Work := decompressEach readAll

def decompressWriter : Work := decompressEach (writeAll false)

def decompressIterator : Work := decompressEach fun x b => discard (iterate false x b)

def decompressObject : Work := decompressEach fun x b => do
  tell (← askObject x "decompressobj" []) "decompress" (dataArg b)

/-! ### Decompressing a stream -/

def inflateStream : Work := fun _ => return

def decompressStreamWriter : Work := fun j => do
  let x ← newDecompressor j none
  let w ← askObject x "stream_writer" [("writer", memory)]
  within w (j.chunks.forM fun b => tell w "write" (dataArg b))

def decompressStreamObject : Work := fun j => do
  let x ← newDecompressor j none
  let o ← askObject x "decompressobj" []
  j.chunks.forM fun b => tell o "decompress" (dataArg b)

/-! ### Decompressing with the content before as dictionary -/

def decompressChained (one : Nat → ByteArray → SessionM ByteArray) : Work := fun j => do
  let first ← one (← newDecompressor j none) (← firstChunk j)
  let _ ← (j.chunks.drop 1).foldlM (fun last b => do one (← newDecompressor j (some last)) b) first

def decompressChainedAtOnce : Work := decompressChained fun x b => askBytes x "decompress" (dataArg b)

/-- Leaving the stream closes the place in memory, and what was written there is lost. -/
def decompressChainedWriter : Work := fun j => do
  let x ← newDecompressor j none
  let b ← firstChunk j
  writeAll false x b
  throw .closedFile

def decompressChainedIterator : Work := decompressChained (iterate false)

def decompressChainedObject : Work := decompressChained fun x b => do
  askBytes (← askObject x "decompressobj" []) "decompress" (dataArg b)

def decompressChain : Work := fun j => do
  let x ← newDecompressor j none
  tell x "decompress_content_dict_chain" [("frames", .list (j.chunks.map .ofBytes))]

end ZstCodec.Bench
