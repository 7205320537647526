import ZstCodec.Compress.Feed

/-! # Iterating over compressed output

An iterator reads a source to its end and yields the compressed form, doing nothing before a piece is asked for. Copying
is the same, with a sink. -/

namespace ZstCodec.Compress

open Pipe

/-- How far an iterator has got. -/
inductive IterPhase where
  | fresh
  | feeding (input : ByteArray) (pos : Nat)
  | ending (waiting : Nat)
  | done

structure Iterator where
  pledged : Except Failure (Option Nat)
  readSize : Int
  room : Except Failure Nat
  offset : Int := 0
  phase : IterPhase := .fresh
  held : ByteArray := .empty

instance : Buffered Iterator :=
  ⟨Iterator.held, fun it held => { it with held }, fun _ _ => rfl, fun _ _ _ => rfl, fun _ => rfl⟩

namespace Iterator

abbrev Action := Act Context Iterator

def readInput : Action ByteArray := do
  let d ← get
  match d.source with
  | .device _ => askSource d.object.readSize
  | .buffer b =>
    let start := d.object.offset
    let stop := start + min ((b.size : Int) - start) d.object.readSize
    modifyObject ({ · with offset := stop })
    return slicePart b start stop
  | .other n _ => if n = some 0 then return .empty else throw .wrongType

def setPhase (p : IterPhase) : Action Unit := modifyObject ({ · with phase := p })

def begin (pledged : Except Failure (Option Nat)) : Action Unit := do
  beginFrame none
  beginFrame (← MonadExcept.ofExcept pledged)
  let _ ← MonadExcept.ofExcept (← object).room

def start : Action Unit := do
  match ← source with
  | .device g => if g.canRead then begin (← object).pledged else throw .noRead
  | .buffer b => begin (.ok (some b.size))
  | .other n parts => if parts then begin (.ok n) else throw .noRead

def finishOn (room : Nat) : Nat → Action (Option ByteArray)
  | 0 => return none
  | fuel + 1 => do
    assertEmpty
    let (_, waiting, b) ← exchange .endingStream room (call .empty 0 · .finish)
    if b.size ≠ 0 then
      setPhase (.ending waiting)
      return some b
    else if waiting = 0 then
      setPhase .done
      return none
    else finishOn room fuel

def feedOn (room : Nat) (input : ByteArray) (pos : Nat) : Nat → Action (Option ByteArray)
  | 0 => return none
  | fuel + 1 => do
    if input.size ≤ pos then return none
    let (pos, _, b) ← exchange .compressingStream room (call input pos · .more)
    if b.size ≠ 0 then
      setPhase (.feeding input pos)
      return some b
    else feedOn room input pos fuel

def readOn (room : Nat) : Nat → Action (Option ByteArray)
  | 0 => return none
  | fuel + 1 => do
    assertEmpty
    let input ← readInput
    if input.size = 0 then finishOn room ((← get).codec.effort 0)
    else match ← feedOn room input 0 ((← get).codec.effort input.size) with
      | some b => return some b
      | none =>
        assertEmpty
        readOn room fuel

def next : Action (Option ByteArray) := do
  let it ← object
  let room := it.room.toOption.getD 0
  match it.phase with
  | .fresh =>
    start
    readOn room ((← get).source.rest + 2)
  | .feeding input pos =>
    match ← feedOn room input pos ((← get).codec.effort (input.size - pos)) with
    | some b => return some b
    | none =>
      assertEmpty
      readOn room ((← get).source.rest + 2)
  | .ending waiting =>
    if waiting = 0 then
      setPhase .done
      return none
    else finishOn room ((← get).codec.effort 0)
  | .done => return none

end Iterator

/-! ### Copying -/

/-- Totals of a copy: bytes read and bytes written. -/
structure Copied where
  read : Nat := 0
  written : Nat := 0
  deriving DecidableEq, Repr

namespace Copied

abbrev Action := Act Context Copied

def emit (b : ByteArray) : Action Unit := do
  giveSink b
  modifyObject fun c => { c with written := c.written + b.size }

def readAll (readSize : Int) (room : Nat) : Nat → Action Unit
  | 0 => return
  | fuel + 1 => do
    let data ← askSource readSize
    if data.size = 0 then return
    modifyObject fun c => { c with read := c.read + data.size }
    feed data room emit
    readAll readSize room fuel

def run (pledged : Option Nat) (readSize : Int) (room : Except Failure Nat) : Action Copied := do
  beginFrame pledged
  let room ← MonadExcept.ofExcept room
  readAll readSize room ((← get).source.rest + 2)
  drain .finish .endingStream room emit
  object

end Copied

end ZstCodec.Compress
