import ZstCodec.Decompress.Object

/-! # Decompressing writers

A writer decodes what is written to it and passes the content on to a sink. -/

namespace ZstCodec.Decompress

open Pipe

structure StreamWriter where
  room : Except Failure Nat
  returnRead : Bool
  closesSink : Bool
  entered : Bool := false
  closing : Bool := false
  closed : Bool := false
  written : Nat := 0

namespace StreamWriter

abbrev Action := Act Stream StreamWriter

def emit (b : ByteArray) : Action Unit := do
  giveSink b
  modifyObject fun w => { w with written := w.written + b.size }

def write (data : Except Failure ByteArray) : Action Nat := do
  let w ← object
  if w.closed then throw .closed
  let data ← MonadExcept.ofExcept data
  let room ← MonadExcept.ofExcept w.room
  modifyObject ({ · with written := 0 })
  let pos ← decodeFrom data .decompressingStream room emit 0 (effort data.size)
  if w.returnRead then return pos else return (← object).written

def flush : Action Unit := do
  let w ← object
  if w.closed then throw .closed
  if ! w.closing then flushSink

def close : Action Unit := do
  let w ← object
  if w.closed then return
  modifyObject ({ · with closed := true })
  if w.closesSink then closeSink

def enter : Action Unit := do
  let w ← object
  if w.closed then throw .closed
  if w.entered then throw .enteredTwice
  modifyObject ({ · with entered := true })

def leave : Action Unit := do
  modifyObject ({ · with entered := false })
  close

end StreamWriter

end ZstCodec.Decompress
