import ZstCodec.Compress.Feed

/-! # Compression objects

A compression object takes input and gives back, call by call, the output that this input has caused. -/

namespace ZstCodec.Compress

open Pipe

structure Object where
  finished : Bool := false
  out : ByteArray := .empty
  held : ByteArray := .empty

instance : Buffered Object :=
  ⟨Object.held, fun o held => { o with held }, fun _ _ => rfl, fun _ _ _ => rfl, fun _ => rfl⟩

/-- How far a flush goes. -/
inductive FlushMode where
  | block
  | frame
  deriving DecidableEq, Repr

def FlushMode.directive : FlushMode → Directive
  | block => .flush
  | frame => .finish

namespace Object

abbrev Action := Act Context Object

def emit (b : ByteArray) : Action Unit := modifyObject fun o =>
  let ⟨finished, out, held⟩ := o
  { finished, out := out ++ b, held }

def takeOut : Action ByteArray := modifyGet fun d =>
  (d.object.out, { d with object := { d.object with out := .empty } })

def feedFrom (input : ByteArray) (pos : Nat) : Nat → Action Unit
  | 0 => return
  | fuel + 1 => do
    if input.size ≤ pos then return
    let (pos, _, b) ← exchange .compressingStream recommendedRoom (call input pos · .more)
    if b.size ≠ 0 then emit b
    feedFrom input pos fuel

def drainFrom (directive : Directive) : Nat → Action Unit
  | 0 => return
  | fuel + 1 => do
    let (_, waiting, b) ← exchange .endingStream recommendedRoom (call .empty 0 · directive)
    if b.size ≠ 0 then emit b
    if waiting ≠ 0 then drainFrom directive fuel

def compress (data : Except Failure ByteArray) : Action ByteArray := do
  if (← object).finished then throw .compressorFinished
  let data ← MonadExcept.ofExcept data
  modifyObject ({ · with out := .empty })
  feedFrom data 0 ((← get).codec.effort data.size)
  takeOut

/-- Give out what waits; after the end of the frame nothing more can be done. -/
def flush (mode : FlushMode) : Action ByteArray := do
  if (← object).finished then throw .objectFinished
  modifyObject fun o => { o with finished := mode = .frame, out := .empty }
  assertEmpty
  drainFrom mode.directive ((← get).codec.effort 0)
  takeOut

end Object

end ZstCodec.Compress
