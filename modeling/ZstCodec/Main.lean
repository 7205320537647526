import ZstCodec.Bench.Program

/-! # The command line

Runs the benchmark program on files of the system, with the clock of the system. -/

namespace ZstCodec.Bench

/-- All files at a path, with their bytes; a link that leads nowhere has none. -/
partial def filesAt (path : String) : IO (List (String × Option ByteArray)) := do
  let place ← IO.FS.realPath path
  if ← place.isDir then
    let entries ← place.readDir
    return (← entries.toList.mapM fun e => filesAt (path ++ "/" ++ e.fileName)).flatten
  else
    try return [(path, some (← IO.FS.readBinFile path))]
    catch _ => return [(path, none)]

def clock : IO Rat := return mkRat (← IO.monoNanosNow) 1000000000

/-- The system as a host. It tells no time of the processor apart from that of the clock. -/
def system : Host IO where
  wall := clock
  processor := return (← clock, 0)
  perform work := IO.lazyPure work
  print := IO.println

end ZstCodec.Bench

open ZstCodec ZstCodec.Bench

def main (args : List String) : IO UInt32 := do
  let files ← match Options.parse args with
    | .ok o => o.paths.mapM filesAt
    | .error _ => pure []
  let w : Session.World := { backend := .native }
  match ← (run system w (Tree.ofFiles files.flatten) args).run with
  | .ok () => return 0
  | .error (.exit code) => return code.toUInt32
  | .error (.failed e) =>
    IO.eprintln e.message
    return 1
