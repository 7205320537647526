import ZstCodec.Compress.Feed

/-! # Chunkers

A chunker gives chunks of one size; only a flush or the end gives a shorter one. Each operation is a *run*, which yields
a chunk when asked for the next. An unfinished run keeps its hold on the input, and the chunker takes no other operation
before that is used up. -/

namespace ZstCodec.Compress

open Pipe

structure Chunker where
  chunkSize : Nat
  out : ByteArray := .empty
  input : Option (ByteArray × Nat) := none
  finished : Bool := false

namespace Chunker

abbrev Action := Act Context Chunker

inductive Task where
  | compress (data : Except Failure ByteArray)
  | flush
  | finish

/-- How far a run has got. -/
inductive Phase where
  | fresh
  | yielded (waiting : Nat)
  | done
  deriving DecidableEq, Repr

structure Run where
  task : Task
  phase : Phase := .fresh

def step (input : ByteArray) (pos : Nat) (directive : Directive) : Action Outcome := do
  let k ← object
  let o ← call input pos (k.chunkSize - k.out.size) directive
  modifyObject fun k => { k with out := k.out ++ o.out }
  return o

def compressOn : Nat → Action (Option ByteArray × Phase)
  | 0 => return (none, .done)
  | fuel + 1 => do
    match (← object).input with
    | none => return (none, .done)
    | some (data, pos) =>
      let o ← step data pos .more
      modifyObject fun k => { k with input := if o.pos = data.size then none else some (data, o.pos) }
      match o.result with
      | .error e => throw (.codec .compressingStream e)
      | .ok waiting =>
        let k ← object
        if k.out.size = k.chunkSize then return (some k.out, .yielded waiting) else compressOn fuel

def drainOn (directive : Directive) : Nat → Action (Option ByteArray × Phase)
  | 0 => return (none, .done)
  | fuel + 1 => do
    let o ← step .empty 0 directive
    match o.result with
    | .error e => throw (.codec .compressingStream e)
    | .ok waiting =>
      let k ← object
      if k.out.size ≠ 0 then return (some k.out, .yielded waiting)
      else if waiting ≠ 0 then drainOn directive fuel
      else
        modifyObject fun k => { k with finished := k.finished || directive = .finish }
        return (none, .done)

def drainAfter (directive : Directive) (waiting : Nat) : Action (Option ByteArray × Phase) := do
  if waiting ≠ 0 then drainOn directive ((← get).codec.effort 0)
  else
    modifyObject fun k => { k with finished := k.finished || directive = .finish }
    return (none, .done)

def checkReady (name : String) (pending : Failure) : Action Unit := do
  let k ← object
  if k.finished then throw (.chunkerFinished name)
  if k.input.isSome then throw pending

def start (task : Task) : Action (Option ByteArray × Phase) := do
  match task with
  | .compress data =>
    checkReady "compress" .chunkerBusy
    let data ← MonadExcept.ofExcept data
    if data.size = 0 then return (none, .done)
    modifyObject ({ · with input := some (data, 0) })
    compressOn ((← get).codec.effort data.size)
  | .flush =>
    checkReady "flush" (.chunkerPending "flush")
    drainOn .flush ((← get).codec.effort 0)
  | .finish =>
    checkReady "finish" (.chunkerPending "finish")
    drainOn .finish ((← get).codec.effort 0)

def next (run : Run) : Action (Option ByteArray × Run) := do
  let (chunk, phase) ← match run.phase with
    | .fresh => start run.task
    | .yielded waiting =>
      modifyObject ({ · with out := .empty })
      match run.task with
      | .compress _ =>
        let n := match (← object).input with | none => 0 | some (b, pos) => b.size - pos
        compressOn ((← get).codec.effort n)
      | .flush => drainAfter .flush waiting
      | .finish => drainAfter .finish waiting
    | .done => pure (none, .done)
  return (chunk, { run with phase })

end Chunker

end ZstCodec.Compress
