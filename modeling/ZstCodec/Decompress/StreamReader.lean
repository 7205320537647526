import ZstCodec.Decompress.Object

/-! # Decompressing readers

A reader takes frames from a source and gives out their content. A piece may end early at the end of a frame, unless the
reader reads across frames. Reading *once* stops as soon as there is any content. Seeking forward reads and drops
content. -/

namespace ZstCodec.Decompress

open Pipe

structure StreamReader where
  readSize : Int
  acrossFrames : Bool
  closesSource : Bool
  entered : Bool := false
  closed : Bool := false
  total : Nat := 0
  finishedInput : Bool := false
  input : ByteArray := .empty
  pos : Nat := 0
  out : ByteArray := .empty

namespace StreamReader

abbrev Action := Act Stream StreamReader

def readInput : Action Unit := do
  let d ← get
  let r := d.object
  if r.pos < r.input.size then return
  if r.finishedInput then return
  match d.source with
  | .device g =>
    if ! g.canRead then throw .wrongType
    let data ← askSource r.readSize
    if data.size = 0 then modifyObject ({ · with finishedInput := true })
    else modifyObject ({ · with input := data, pos := 0 })
  | .buffer b => modifyObject ({ · with input := b, pos := 0 })
  | .other .. => throw .wrongType

/-- Decode the input at hand into the room; the answer tells whether to hand it out. -/
def decompressInto (room : Nat) : Action Bool := do
  let r ← object
  let o ← call r.input r.pos (room - r.out.size)
  modifyObject fun r => { r with out := r.out ++ o.out, pos := o.pos }
  if o.pos = r.input.size then
    let whole := ! (← get).source.canRead
    modifyObject fun r => { r with
      input := .empty, pos := 0, finishedInput := r.finishedInput || whole }
  match o.result with
  | .error e => throw (.codec .decompressingStream e)
  | .ok hint =>
    let n := (← object).out.size
    return n ≠ 0 && (n = room || (hint = 0 && ! r.acrossFrames))

/-- Read and decode until there is something to hand out, or the input ends. -/
def fill (room : Nat) : Nat → Action Unit
  | 0 => return
  | fuel + 1 => do
    if (← object).finishedInput then return
    readInput
    if ! (← decompressInto room) then fill room fuel

def fillOnce (room : Nat) : Nat → Action Unit
  | 0 => return
  | fuel + 1 => do
    if (← object).finishedInput then return
    readInput
    let _ ← decompressInto room
    if (← object).out.size = 0 then fillOnce room fuel

def rounds : Action Nat := do
  let d ← get
  return 32 * (d.source.rest + d.object.input.size + 4)

def handOut : Action ByteArray := modifyGet fun d =>
  let r := d.object
  (r.out, { d with object := { r with out := .empty, total := r.total + r.out.size } })

def readRoom (room : Nat) : Action ByteArray := do
  modifyObject ({ · with out := .empty })
  readInput
  if ! (← decompressInto room) then fill room (← rounds)
  handOut

def readRoomOnce (room : Nat) : Action ByteArray := do
  modifyObject ({ · with out := .empty })
  fillOnce room (← rounds)
  handOut

def checkOpen : Action Unit := do
  if (← object).closed then throw .closed

def readInto (room : Nat) (once : Bool) : Action ByteArray := do
  checkOpen
  if once then readRoomOnce room else readRoom room

def allStep : Nat := 1048576

def readAllFrom (out : ByteArray) : Nat → Action ByteArray
  | 0 => return out
  | fuel + 1 => do
    checkOpen
    let b ← readRoom allStep
    if b.size = 0 then return out else readAllFrom (out ++ b) fuel

def readAll : Action ByteArray := do
  let d ← get
  readAllFrom .empty (effort (d.source.rest + d.object.input.size))

/-! ### Seeking -/

def skip (n : Nat) : Nat → Action Unit
  | 0 => return
  | fuel + 1 => do
    if n = 0 then return
    let b ← readRoom (min n recommendedRoom)
    if b.size ≠ 0 then skip (n - b.size) fuel

/-- What a position to seek counts from. -/
inductive Whence where
  | start
  | current
  | stop
  | unknown
  deriving DecidableEq, Repr

def seek (pos : Int) (whence : Whence) : Action Nat := do
  checkOpen
  let total := (← object).total
  let n ← match whence with
    | .start =>
      if pos < 0 then throw .seekNegative
      if pos < total then throw .seekBackwards
      pure (pos - total).toNat
    | .current => if pos < 0 then throw .seekBackwards else pure pos.toNat
    | .stop => throw .seekFromEnd
    | .unknown => pure 0
  skip n (n + 1)
  return (← object).total

def close : Action Unit := do
  let r ← object
  if r.closed then return
  modifyObject ({ · with closed := true })
  if r.closesSource then closeSource

def enter : Action Unit := do
  let r ← object
  if r.entered then throw .readerEnteredTwice
  if r.closed then throw .closed
  modifyObject ({ · with entered := true })

def leave : Action Unit := do
  modifyObject ({ · with entered := false })
  close

end StreamReader

end ZstCodec.Decompress
