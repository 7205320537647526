import ZstCodec.Compress.Feed

/-! # Compressing readers

A reader takes input from a source and gives out its compressed form. Reading fills the room, or comes to the end of the
frame; reading *once* also stops as soon as there is any output. -/

namespace ZstCodec.Compress

open Pipe

structure StreamReader where
  readSize : Int
  closesSource : Bool
  entered : Bool := false
  closed : Bool := false
  total : Nat := 0
  finishedInput : Bool := false
  finishedOutput : Bool := false
  input : ByteArray := .empty
  pos : Nat := 0
  out : ByteArray := .empty

namespace StreamReader

abbrev Action := Act Context StreamReader

variable {κ : Type} [Engine κ]

def readInput : Act κ StreamReader Unit := do
  let r ← object
  if r.finishedInput then return
  match ← source with
  | .device g =>
    if ! g.canRead then throw .wrongType
    let data ← askSource r.readSize
    if data.size = 0 then modifyObject ({ · with finishedInput := true })
    else modifyObject ({ · with input := data, pos := 0 })
  | .buffer b => modifyObject ({ · with input := b, pos := 0 })
  | .other .. => throw .wrongType

def record (r : StreamReader) (o : Outcome) : StreamReader :=
  { r with out := r.out ++ o.out, total := r.total + o.out.size, pos := o.pos }

/-- Input that is used up makes way for more, if there can be more. -/
def release (r : StreamReader) (whole : Bool) : StreamReader :=
  if r.pos = r.input.size then { r with input := .empty, pos := 0, finishedInput := r.finishedInput || whole } else r

/-- Compress the input at hand into the room; the answer tells whether the room is full. -/
def compressInto (room : Nat) : Act κ StreamReader Bool := do
  let r ← object
  if r.input.size ≤ r.pos then return false
  let o ← call r.input r.pos (room - r.out.size) .more
  let s ← source
  modifyObject fun r => (r.record o).release ! s.canRead
  match o.result with
  | .error e => throw (.codecPair .compressingStream e)
  | .ok _ =>
    let n := (← object).out.size
    return n ≠ 0 && n = room

/-- Read input until the room is full or the input ends; with `once`, until there is output. The answer tells whether to
stop. What has not come to an end after the given number of rounds is given up. -/
def fill (room : Nat) (once : Bool) : Nat → Act κ StreamReader Bool
  | 0 => throw .endless
  | rounds + 1 => do
    if (← object).finishedInput then return false
    readInput
    if ← compressInto room then return true
    let r ← object
    if once && r.out.size ≠ 0 && ! r.finishedInput then return true
    fill room once rounds

def finish (room : Nat) (wrap : Fault → Failure) : Act κ StreamReader Unit := do
  let r ← object
  let o ← call r.input r.pos (room - r.out.size) .finish
  modifyObject (·.record o)
  match o.result with
  | .error e => throw (wrap e)
  | .ok waiting => if waiting = 0 then modifyObject ({ · with finishedOutput := true })

def conclude (room : Nat) (once stop : Bool) : Act κ StreamReader ByteArray := do
  if ! stop then
    finish room (if once then .codec .endingStream else .codecPair .endingStream)
  let b := (← object).out
  modifyObject ({ · with out := .empty })
  return b

/-- Read with the input at hand and then, as long as there is room, with what `more` finds. -/
def readRoomBy (more : Act κ StreamReader Bool) (room : Nat) (once : Bool) : Act κ StreamReader ByteArray := do
  modifyObject ({ · with out := .empty })
  let full ← compressInto room
  let r ← object
  if if once then r.out.size ≠ 0 else full then conclude room once true
  else more >>= conclude room once

def checkOpen : Act κ StreamReader Unit := do
  if (← object).closed then throw .closed

def readBy (more : Act κ StreamReader Bool) (room : Nat) (once : Bool) : Act κ StreamReader ByteArray := do
  checkOpen
  if (← object).finishedOutput then return .empty
  readRoomBy more room once

/-- A source that comes to its end does so in as many rounds as it has bytes, one that finds it and one to see that it was
found. -/
def fillAll (room : Nat) (once : Bool) : Act κ StreamReader Bool := do
  fill room once ((← source).rest + 2)

def readRoom (room : Nat) (once : Bool) : Act κ StreamReader ByteArray := readRoomBy (fillAll room once) room once

def readInto (room : Nat) (once : Bool) : Act κ StreamReader ByteArray := readBy (fillAll room once) room once

def allStep : Nat := 1048576

def readAllFrom (out : ByteArray) : Nat → Action ByteArray
  | 0 => return out
  | fuel + 1 => do
    checkOpen
    if (← object).finishedOutput then return out
    let b ← readRoom allStep false
    if b.size = 0 then return out else readAllFrom (out ++ b) fuel

def readAll : Action ByteArray := do
  let d ← get
  readAllFrom .empty (d.codec.effort (d.source.rest + d.object.input.size))

def close : Action Unit := do
  let r ← object
  if r.closed then return
  modifyObject ({ · with closed := true })
  if r.closesSource then closeSource

def enter : Action Unit := do
  let r ← object
  if r.entered then throw .readerEnteredTwice
  if r.closed then throw .closed
  modifyObject ({ · with entered := true })

def leave : Action Unit := do
  modifyObject ({ · with entered := false })
  close

end StreamReader

end ZstCodec.Compress
