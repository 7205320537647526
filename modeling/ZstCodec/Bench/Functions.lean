import ZstCodec.Bench.Program

/-! # Parts of the benchmark program on their own

The parts take loosely typed arguments. -/

namespace ZstCodec.Bench

open Session Number

def numberOf (v : Value) : Except Failure Rat :=
  match v.number? with
  | some (n, places) => .ok (ofDecimal n places)
  | none => .error .wrongType

def optionalInt : Value → Except Failure (Option Int)
  | .none => .ok none
  | v => match v.whole? with
    | some n => .ok (some n)
    | none => .error .wrongType

def chunksFor (files : Tree) (a : Args) : Except Failure (List ByteArray) := do
  a.check ["paths", "limit_count", "encoding"] ["chunk_size"]
  let paths ← match a.getD "paths" .none with
    | .list vs => vs.mapM fun
      | .text s => .ok s
      | _ => .error .wrongType
    | .text s => pure (s.toList.map fun c => String.ofList [c])
    | _ => throw .wrongType
  let limit := a.getD "limit_count" .none
  readChunks files {
    limit := if limit.truth then optionalInt limit else .ok none
    encoding := match a.getD "encoding" .none with | .text s => s | v => v.shown
    size := optionalInt (a.getD "chunk_size" .none) } [] paths

def benchmarksFor (backend : Backend) (a : Args) : Except Failure (List Benchmark) := do
  a.check ["mode", "direction"] ["zlib"]
  let direction ← match a.getD "direction" .none with
    | .text "compress" => pure Direction.compress
    | .text "decompress" => pure Direction.decompress
    | _ => throw .assertion
  let deflates := a.getD "zlib" (.bool false)
  let modes := [Mode.discrete, .stream, .contentDict].filter fun m => match a.getD "mode" .none with
    | .text s => s = m.name
    | _ => false
  let flags := [false, true].filter fun b => deflates.isNumber (if b then 1 else 0)
  return (modes.flatMap fun m => flags.flatMap fun b => select benchmarks backend m direction b)

/-- Register a benchmark: its attributes, and the number of benchmarks there are then. -/
def register (name : String) (a : Args) : Except Failure (List (String × Value) × Nat) := do
  let flags := ["require_content_size", "simple", "zlib", "threads_arg", "chunks_as_buffer", "decompressed_sizes_arg"]
  a.check ["mode", "title"] (flags ++ ["cffi"])
  if ! (name.startsWith "compress_" || name.startsWith "decompress_") then throw .benchmarkName
  let attributes := [("mode", a.getD "mode" .none), ("title", a.getD "title" .none)]
    ++ (flags.map fun f => (f, a.getD f (.bool false))) ++ [("cffi", a.getD "cffi" (.bool true))]
  return (attributes, benchmarks.length + 1)

def timeNothing (tick : Rat) (a : Args) : Except Failure (List Round) := do
  a.check [] ["miniter", "minwall"]
  let rounds ← numberOf (a.getD "miniter" (.int 3))
  let wall ← numberOf (a.getD "minwall" (.int 3))
  (Id.run ((time simulated { rounds, wall } fun _ => .ok ()).run { tick })).1

def roundOf : Value → Except Failure Round
  | .list vs => do
    match ← vs.mapM numberOf with
    | cpu :: user :: system :: wall :: _ => return { cpu, user, system, wall }
    | _ => throw .indexOutOfRange
  | _ => .error .wrongType

def lineText : Value → String
  | .text s => s
  | v => v.shown

def reportFor (a : Args) : Except Failure (List String) := do
  a.check ["results", "title", "prefix", "total_size"] []
  let rounds ← match a.getD "results" .none with
    | .list vs => vs.mapM roundOf
    | _ => throw .wrongType
  let size ← numberOf (a.getD "total_size" .none)
  report rounds (lineText (a.getD "title" .none)) (lineText (a.getD "prefix" .none)) size.floor

def timeDiscreteFor (w : World) (tick : Rat) (chunks : List Value) (params dict : Value) (a : Args) : Outcome :=
  outcomeOf tick do
    let settings ← inWorld w (do
      match ← resolveSettings params with
      | some s => return s
      | none => throw .noAttribute)
    let dict ← inWorld w (resolveDictionary dict)
    orFail (a.check [] ["cover", "batch_threads"])
    let chunks ← orFail (chunks.mapM (·.toBytes))
    timeDiscrete simulated w benchmarks chunks settings (a.getD "cover" (.bool false)).truth
      (dict.any (·.bytes.size ≠ 0)) (a.getD "batch_threads" .none)

def runNamed (w : World) (name : String) (chunks : List Value) (a : Args) : Except Failure Unit := do
  let some b := benchmarks.find? (·.name = name) | throw .noAttribute
  let options ← match a.getD "opts" (.map []) with
    | .map fields => pure fields
    | _ => throw .wrongType
  b.run w {
    chunks := ← chunks.mapM (·.toBytes)
    options
    deflateLevel := ((options.lookup "zlib_level").bind (·.whole?)).getD 6 }

end ZstCodec.Bench
