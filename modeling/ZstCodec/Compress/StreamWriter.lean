import ZstCodec.Compress.Object

/-! # Compressing writers

A writer passes the compressed form of what is written on to a sink. Closing it ends the frame and closes the sink; once
closing has been tried, the writer counts as closed, even if the sink failed. -/

namespace ZstCodec.Compress

open Pipe

structure StreamWriter where
  room : Nat
  returnRead : Bool
  closesSink : Bool
  entered : Bool := false
  closing : Bool := false
  closed : Bool := false
  total : Nat := 0
  written : Nat := 0

namespace StreamWriter

abbrev Action := Act Context StreamWriter

def emit (b : ByteArray) : Action Unit := do
  giveSink b
  modifyObject fun w => { w with total := w.total + b.size, written := w.written + b.size }

def write (data : Except Failure ByteArray) : Action Nat := do
  let w ← object
  if w.closed then throw .closed
  let data ← MonadExcept.ofExcept data
  modifyObject ({ · with written := 0 })
  feed data w.room emit
  if w.returnRead then return data.size else return (← object).written

def flush (mode : FlushMode) : Action Nat := do
  let w ← object
  if w.closed then throw .closed
  modifyObject ({ · with written := 0 })
  drain mode.directive .compressingStream w.room emit
  if ! w.closing then flushSink
  return (← object).written

def close : Action Unit := do
  let w ← object
  if w.closed then return
  modifyObject ({ · with closing := true })
  try
    let _ ← flush .frame
  finally
    modifyObject ({ · with closing := false, closed := true })
  if w.closesSink then closeSink

def enter : Action Unit := do
  let w ← object
  if w.closed then throw .closed
  if w.entered then throw .enteredTwice
  modifyObject ({ · with entered := true })

def leave : Action Unit := do
  modifyObject ({ · with entered := false })
  close

end StreamWriter

end ZstCodec.Compress
