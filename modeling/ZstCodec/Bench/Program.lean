import ZstCodec.Bench.Chunks
import ZstCodec.Bench.Options
import ZstCodec.Bench.Table
import ZstCodec.Bench.Timing
import ZstCodec.Random.Twister
import ZstCodec.Session.Operations

/-! # The benchmark program

The program reads chunks, compresses them in the modes asked for and tells how small they got. Then it times the
benchmarks of these modes. A failure ends it; what has been shown by then stays. -/

namespace ZstCodec.Bench

open Session Number

/-- Why the program ends before its end. -/
inductive Ending where
  | exit (code : Nat)
  | failed (e : Failure)

abbrev ProgramM (m : Type → Type) := ExceptT Ending m

variable {m : Type → Type} [Monad m]

def lift {α : Type} (a : m α) : ProgramM m α := ExceptT.lift a

def orFail {α : Type} : Except Failure α → ProgramM m α
  | .ok a => return a
  | .error e => throw (.failed e)

def printLines (host : Host m) (lines : List String) : ProgramM m Unit := lines.forM fun s => lift (host.print s)

/-! ### Timing benchmarks -/

def timeAll (host : Host m) (w : World) (label : String) (size : Nat) (job : Benchmark → Job) (bs : List Benchmark) :
    ProgramM m Unit :=
  bs.forM fun b => do
    let rounds ← orFail (← lift (time host {} fun _ => b.run w (job b)))
    printLines host (← orFail (report rounds b.title label size))

def totalSize (chunks : List ByteArray) : Nat := chunks.foldl (fun n b => n + b.size) 0

/-- Time compression chunk by chunk. The dictionary is told about, but not used. -/
def timeDiscrete (host : Host m) (w : World) (table : List Benchmark) (chunks : List ByteArray) (settings : Settings)
    (cover hasDict : Bool) (threads : Value) : ProgramM m Unit :=
  let label := if ! hasDict then "compress discrete"
    else if cover then "compress discrete cover dict" else "compress discrete dict"
  timeAll host w label (totalSize chunks) (fun _ => { chunks, settings, threads })
    (select table w.backend .discrete .compress false)

/-! ### Sizes -/

def percent (part whole : Nat) : ProgramM m Rat :=
  if whole = 0 then throw (.failed .divisionByZero) else return mul (div part whole) 100

def shownPercent (q : Rat) : String := fixed 2 q ++ "%"

def sizeLine (what : String) (level : Int) (frames chunks : List ByteArray) : ProgramM m String := do
  let size := totalSize frames
  return s!"{what} compressed size (l={level}): {size} (" ++ shownPercent (← percent size (totalSize chunks)) ++ ")"

def sizesLine (what : String) (level : Int) (frames chunks : List ByteArray) : ProgramM m String := do
  if chunks.any (·.size = 0) then throw (.failed .divisionByZero)
  let line ← sizeLine what level frames chunks
  let bad := (frames.zip chunks).countP fun (f, c) => c.size ≤ f.size
  return line ++ "; smaller: " ++ shownPercent (sub 100 (← percent bad chunks.length))

/-! ### Compressing -/

def inWorld {α : Type} (w : World) (a : SessionM α) : ProgramM m α := orFail (alone w a)

def framesMany (job : Job) (dict : Option HeldDictionary) : SessionM (List ByteArray) := do
  let x ← addThing (.compressor (← compressorOf (← get).processors [] dict (some job.settings)))
  match ← ask x "multi_compress_to_buffer" [("data", .list (job.chunks.map .ofBytes)), ("threads", .int (-1))] with
  | .made (.collection c) => return c.parts.map (·.bytes)
  | _ => throw .wrongType

def streamBlocks (job : Job) : SessionM (List ByteArray) := do
  let o ← askObject (← newCompressor job none) "compressobj" []
  job.chunks.mapM fun b => do
    let new ← askBytes o "compress" (dataArg b)
    return new ++ (← askBytes o "flush" [("flush_mode", .int 1)])

def chainedFrames (job : Job) : SessionM (List ByteArray) := do
  let first ← askBytes (← newCompressor job none) "compress" (dataArg (← firstChunk job))
  let rest ← (withLast job.chunks).mapM fun (last, b) => do
    askBytes (← newCompressor job (some last)) "compress" (dataArg b)
  return first :: rest

def deflatedStream (chunks : List ByteArray) : List ByteArray :=
  ((chunks.foldl
    (fun (acc : List ByteArray × Deflate.Storer) b =>
      let (new, s) := acc.2.push b .no
      let (rest, s) := s.push .empty .sync
      ((new ++ rest) :: acc.1, s))
    ([], {})).1).reverse

/-! ### The program -/

def settingsFor (o : Options) (w : World) : Except Failure Settings :=
  let optional (name : String) (v : Option Int) : Args := match v with
    | some n => if n = 0 then [] else [(name, .int n)]
    | none => []
  settingsOfLevel w.processors ([("level", .int o.level), ("write_content_size", .bool (! o.noWriteSize))]
    ++ (if o.writeChecksum then [("write_checksum", .bool true)] else [])
    ++ optional "threads" o.compressThreads
    ++ (if o.longDistance then [("enable_ldm", .bool true)] else [])
    ++ optional "ldm_hash_log" o.ldmHashLog)

def sampleSeed : Array UInt32 := #[42]

def trainingChunks (o : Options) (chunks : List ByteArray) : Except Failure (List ByteArray) :=
  match o.sampleLimit with
  | none | some 0 => .ok chunks
  | some k =>
    if k < 0 ∨ (chunks.length : Int) < k then .error (.value "Sample larger than population or is negative")
    else
      let all := chunks.toArray
      .ok (((Random.Twister.ofSeed sampleSeed).sample all.size k.toNat).map fun i => all.getD i .empty)

def trainFor (o : Options) (w : World) (chunks : List ByteArray) : Except Failure HeldDictionary := do
  let samples ← trainingChunks o chunks
  let optional (name : String) (n : Int) : Args := if n = 0 then [] else [(name, .int n)]
  alone w (trainDictionary (.int o.dictSize) (.list (samples.map .ofBytes))
    ([("level", .int o.level)] ++ optional "k" o.coverK ++ optional "d" o.coverD ++ [("threads", .int (-1))]))

/-- What has been compressed, for the benchmarks of decompression. -/
structure Compressed where
  deflated : List ByteArray := []
  discrete : List ByteArray := []
  withDict : List ByteArray := []
  deflatedStream : List ByteArray := []
  stream : List ByteArray := []
  chained : List ByteArray := []

def compressAll (host : Host m) (w : World) (o : Options) (settings : Settings) (chunks : List ByteArray)
    (dict : Option HeldDictionary) : ProgramM m Compressed := do
  let job : Job := { chunks, settings }
  let print (line : String) : ProgramM m Unit := lift (host.print line)
  let when_ (cond : Bool) (frames : ProgramM m (List ByteArray)) (line : List ByteArray → ProgramM m String) :
      ProgramM m (List ByteArray) := do
    if ! cond then return []
    let frames ← frames
    print (← line frames)
    return frames
  let deflateOk : ProgramM m Unit := orFail (checkDeflateLevel o.deflateLevel)
  let deflated ← when_ (o.deflate && o.discrete)
    (do deflateOk; return chunks.map Deflate.stored)
    (sizesLine "zlib discrete" o.deflateLevel · chunks)
  let discrete ← when_ o.discrete (inWorld w (framesMany job none)) (sizesLine "discrete" o.level · chunks)
  let withDict ← when_ o.discreteDict (inWorld w (framesMany job dict)) (sizesLine "discrete dict" o.level · chunks)
  let deflatedStream ← when_ (o.deflate && o.stream)
    (do deflateOk; return deflatedStream chunks)
    (sizeLine "stream zlib" o.deflateLevel · chunks)
  let shownLevel := settings.get .level
  let stream ← when_ o.stream (inWorld w (streamBlocks job)) (sizeLine "stream" shownLevel · chunks)
  let chained ← when_ o.contentDict (inWorld w (chainedFrames job)) (sizesLine "content dict" shownLevel · chunks)
  return { deflated, discrete, withDict, deflatedStream, stream, chained }

def timeCompression (host : Host m) (w : World) (o : Options) (table : List Benchmark) (settings : Settings)
    (chunks : List ByteArray) (hasDict : Bool) : ProgramM m Unit := do
  let size := totalSize chunks
  let job : Benchmark → Job := fun _ => { chunks, settings, deflateLevel := o.deflateLevel }
  let threads : Value := .int o.batchThreads
  let run (label : String) (mode : Mode) (deflates : Bool) : ProgramM m Unit :=
    timeAll host w label size job (select table w.backend mode .compress deflates)
  if o.deflate && o.discrete then run "compress discrete zlib" .discrete true
  if o.discrete then timeDiscrete host w table chunks settings false false threads
  if o.discreteDict then timeDiscrete host w table chunks settings false hasDict threads
  if o.deflate && o.stream then run "compress stream zlib" .stream true
  if o.stream then run "compress stream" .stream false
  if o.contentDict then run "compress content dict" .contentDict false

def timeDecompression (host : Host m) (w : World) (o : Options) (table : List Benchmark) (settings : Settings)
    (chunks : List ByteArray) (dict : Option HeldDictionary) (c : Compressed) : ProgramM m Unit := do
  let size := totalSize chunks
  let sized := settings.get .contentSizeFlag ≠ 0
  let run (label : String) (mode : Mode) (deflates : Bool) (job : Job) : ProgramM m Unit :=
    timeAll host w label size (fun _ => job)
      ((select table w.backend mode .decompress deflates).filter fun b => sized || ! b.needsSize)
  let threads : Value := .int o.batchThreads
  let sizes := chunks.map (·.size)
  if o.deflate && o.discrete then run "decompress discrete zlib" .discrete true { chunks := c.deflated }
  if o.discrete then run "decompress discrete" .discrete false { chunks := c.discrete, threads, sizes }
  if o.discreteDict then
    let options : Args := match dict with
      | some d => if d.bytes.size = 0 then [] else [("dict_data", .map [("data", .ofBytes d.bytes), ("dict_type", .int 2)])]
      | none => []
    let label := if options.isEmpty then "decompress discrete" else "decompress discrete dict"
    run label .discrete false { chunks := c.withDict, options, threads, sizes }
  if o.deflate && o.stream then run "decompress stream zlib" .stream true { chunks := c.deflatedStream }
  if o.stream then run "decompress stream" .stream false { chunks := c.stream }
  if o.contentDict then run "decompress content dict" .contentDict false { chunks := c.chained }

def runOptions (host : Host m) (w : World) (files : Tree) (o : Options) : ProgramM m Unit := do
  let print (line : String) : ProgramM m Unit := lift (host.print line)
  let table := if o.onlySimple then benchmarks.filter (·.simple) else benchmarks
  let settings ← orFail (settingsFor o w)
  let chunks ← orFail (readChunks files
    { limit := .ok o.limitCount, encoding := o.chunkEncoding, size := .ok o.splitSize } [] o.paths)
  print s!"{chunks.length} chunks; {totalSize chunks} bytes"
  let dict ← if ! o.discreteDict then pure none else do
    let d ← orFail (trainFor o w chunks)
    print s!"trained dictionary of size {d.bytes.size} (wanted {o.dictSize}) (l={o.level})"
    pure (some d)
  let c ← compressAll host w o settings chunks dict
  print ""
  if ! o.noCompression then
    timeCompression host w o table settings chunks (dict.any (·.bytes.size ≠ 0))
    if ! o.noDecompression then print ""
  if ! o.noDecompression then timeDecompression host w o table settings chunks dict c

def run (host : Host m) (w : World) (files : Tree) (args : List String) : ProgramM m Unit := do
  match Options.parse args with
  | .error .help => throw (.exit 0)
  | .error .wrong => throw (.exit 2)
  | .ok o => runOptions host w files o

/-- What a run on the simulated clock has shown, and how it ended. -/
structure Outcome where
  lines : List String
  ending : Option Ending

def outcomeOf (tick : Rat) (p : ProgramM (StateM Simulated) Unit) : Outcome :=
  let (result, s) := Id.run (p.run.run { tick })
  { lines := s.shown.reverse, ending := match result with | .ok () => none | .error e => some e }

def simulate (w : World) (tick : Rat) (files : Tree) (args : List String) : Outcome :=
  outcomeOf tick (run simulated w files args)

end ZstCodec.Bench
