import ZstCodec.Decompress.Object

/-! # Iterating over content

An iterator reads a frame from a source and yields its content piece by piece. Copying is the same, with a sink, and
goes on to the end of the source. -/

namespace ZstCodec.Decompress

open Pipe

/-- How far an iterator has got. -/
inductive IterPhase where
  | fresh
  | decoding (input : ByteArray) (pos hint : Nat)
  | done

structure Iterator where
  readSize : Int
  room : Except Failure Nat
  skip : Int
  offset : Int := 0
  phase : IterPhase := .fresh
  held : ByteArray := .empty

instance : Buffered Iterator :=
  ⟨Iterator.held, fun it held => { it with held }, fun _ _ => rfl, fun _ _ _ => rfl, fun _ => rfl⟩

namespace Iterator

abbrev Action := Act Stream Iterator

def setPhase (p : IterPhase) : Action Unit := modifyObject ({ · with phase := p })

def readInput : Action ByteArray := do
  let d ← get
  match d.source with
  | .device _ => askSource d.object.readSize
  | .buffer b =>
    let start := d.object.offset
    let stop := start + min ((b.size : Int) - start) d.object.readSize
    modifyObject ({ · with offset := stop })
    return slicePart b start stop
  | .other n _ => if n = some 0 then return .empty else throw .wrongType

def skipInput (n : Int) : Action Unit := do
  match ← source with
  | .device g =>
    if ! g.canRead then throw .noRead
    if n ≠ 0 then
      let _ ← askSource n
  | .buffer b =>
    if n ≠ 0 then
      if (b.size : Int) < n then throw .skipBeyond
      modifyObject ({ · with offset := n })
  | .other length parts =>
    if ! parts then throw .noRead
    if n ≠ 0 && length.getD 0 < n then throw .skipBeyond

def start : Action Unit := do
  let it ← object
  if it.readSize ≤ it.skip then throw .skipTooLarge
  skipInput it.skip
  modify fun d => { d with codec := d.codec.reset }
  let _ ← MonadExcept.ofExcept it.room

/-- Decode until there is a piece or no input. The answer tells whether the frame has ended. -/
def decodeOn (room : Nat) (input : ByteArray) (pos : Nat) : Nat → Action (Option ByteArray × Bool)
  | 0 => return (none, true)
  | fuel + 1 => do
    if input.size ≤ pos then return (none, false)
    assertEmpty
    let (pos, hint, b) ← exchange .decompressingStream room (call input pos)
    if b.size ≠ 0 then
      setPhase (.decoding input pos hint)
      return (some b, false)
    else if hint = 0 then
      setPhase .done
      return (none, true)
    else decodeOn room input pos fuel

def readOn (room : Nat) : Nat → Action (Option ByteArray)
  | 0 => return none
  | fuel + 1 => do
    assertEmpty
    let input ← readInput
    if input.size = 0 then
      setPhase .done
      return none
    match ← decodeOn room input 0 (effort input.size) with
    | (some b, _) => return some b
    | (none, true) => return none
    | (none, false) => readOn room fuel

def next : Action (Option ByteArray) := do
  let it ← object
  let room := it.room.toOption.getD 0
  match it.phase with
  | .fresh =>
    start
    readOn room ((← get).source.rest + 2)
  | .decoding input pos hint =>
    if hint = 0 then
      setPhase .done
      return none
    match ← decodeOn room input pos (effort (input.size - pos)) with
    | (some b, _) => return some b
    | (none, true) => return none
    | (none, false) => readOn room ((← get).source.rest + 2)
  | .done => return none

end Iterator

/-! ### Copying -/

/-- Totals of a copy: bytes read and bytes written. -/
structure Copied where
  read : Nat := 0
  written : Nat := 0
  deriving DecidableEq, Repr

namespace Copied

abbrev Action := Act Stream Copied

def emit (b : ByteArray) : Action Unit := do
  giveSink b
  modifyObject fun c => { c with written := c.written + b.size }

def readAll (readSize : Int) (room : Nat) : Nat → Action Unit
  | 0 => return
  | fuel + 1 => do
    let data ← askSource readSize
    if data.size = 0 then return
    modifyObject fun c => { c with read := c.read + data.size }
    let _ ← decodeFrom data .decompressingObject room emit 0 (effort data.size)
    readAll readSize room fuel

def run (readSize : Int) (room : Except Failure Nat) : Action Copied := do
  modify fun d => { d with codec := d.codec.reset }
  let room ← MonadExcept.ofExcept room
  readAll readSize room ((← get).source.rest + 2)
  object

end Copied

end ZstCodec.Decompress
