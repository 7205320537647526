import ZstCodec.Session.Reply
import ZstCodec.Session.Make

/-! # Calls on compressors and their streams -/

namespace ZstCodec.Session

open Pipe

/-! ### Objects -/

def objectFlushMode (v : Value) : Except Failure Compress.FlushMode :=
  if v.isNumber 0 then .ok .frame
  else if v.isNumber 1 then .ok .block
  else .error .flushMode

open Compress.Object in
def callCompressObject (self owner : Nat) (o : Compress.Object) (c : Call) : SessionM Reply := do
  let run {α : Type} (act : Action α) : SessionM α :=
    onCompressor owner self (fun o _ _ => .compressObject owner o) o default {} act
  match c.method with
  | "compress" =>
    c.args.check ["data"] []
    return .bytes (← run (compress (c.args.getD "data" .none).toBytes))
  | "flush" =>
    c.args.check [] ["flush_mode"]
    let mode ← objectFlushMode (c.args.getD "flush_mode" (.int 0))
    return .bytes (← run (flush mode))
  | _ => throw .noAttribute

/-! ### Chunkers -/

def callChunker (self : Nat) (c : Call) : SessionM Reply := do
  let made (task : Compress.Chunker.Task) : Reply := .made (.chunkRun self { task })
  match c.method with
  | "compress" =>
    c.args.check ["data"] []
    return made (.compress (c.args.getD "data" .none).toBytes)
  | "flush" => c.plain (return made .flush)
  | "finish" => c.plain (return made .finish)
  | _ => throw .noAttribute

/-! ### Writers -/

def writerFlushMode (v : Value) : Except Failure Compress.FlushMode :=
  if v.isNumber 0 then .ok .block
  else if v.isNumber 1 then .ok .frame
  else .error (.unknownFlushMode v.shown)

open Compress.StreamWriter in
def callCompressWriter (self : Nat) (owner : Option Nat) (w : Compress.StreamWriter) (sink : Sink) (c : Call) :
    SessionM Reply := do
  let run {α : Type} (act : Action α) : SessionM α :=
    match owner with
    | some i => onCompressor i self (fun w _ sink => .compressWriter owner w sink) w default sink act
    -- without its compressor a writer is closed
    | none => do
      let (result, desk) := Id.run (act.run.run ⟨({} : Compress.Context), w, default, sink, #[]⟩)
      putThing self (.compressWriter none desk.object desk.sink)
      MonadExcept.ofExcept result
  match c.method with
  | "write" =>
    c.args.check ["data"] []
    return .nat (← run (write (c.args.getD "data" .none).toBytes))
  | "flush" =>
    c.args.check [] ["flush_mode"]
    let mode ← writerFlushMode (c.args.getD "flush_mode" (.int 0))
    return .nat (← run (flush mode))
  | "close" => c.plain do
    run close
    return .none
  | "__enter__" => do
    run enter
    return .itself
  | "__exit__" => do
    run leave
    match ← thingAt self with
    | .compressWriter _ w sink => putThing self (.compressWriter none w sink)
    | _ => pure ()
    return .bool false
  | "tell" => c.plain (return .nat w.total)
  | "fileno" => c.plain (sinkFileno sink)
  | "memory_size" => c.plain (if owner.isSome then return .bool true else throw .noAttribute)
  | "isatty" | "readable" | "seekable" => c.plain (return .bool false)
  | "writable" => c.plain (return .bool true)
  | "writelines" => c.refuse ["data"] [] (.notImplemented "writelines() is not yet implemented")
  | "seek" => c.refuse ["offset"] ["whence"] .unsupported
  | "truncate" | "read" | "readline" => c.refuse [] ["size"] .unsupported
  | "readlines" => c.refuse [] ["hint"] .unsupported
  | "readinto" | "readall" | "__iter__" | "__next__" => c.refuse [] [] .unsupported
  | _ => throw .noAttribute

/-! ### Readers -/

open Compress.StreamReader in
def callCompressReader (self owner : Nat) (r : Compress.StreamReader) (source : Source) (c : Call) :
    SessionM Reply := do
  let run {α : Type} (act : Action α) : SessionM α :=
    onCompressor owner self (fun r source _ => .compressReader owner r source) r source {} act
  let reader : Reader := {
    closed := r.closed
    ended := r.finishedOutput
    total := r.total
    recommendedRoom := Compress.recommendedRoom
    readInto := fun n once => run (readInto n once)
    readAll := run readAll
    close := run close
    enter := run enter
    leave := run leave }
  match c.method with
  | "write" | "writelines" => c.refuse ["data"] [] .notWritable
  | "readline" | "readlines" => c.refuse [] [] .unsupported
  | _ => reader.call c

/-! ### Compressors -/

def compressAtOnce (x : Compress.Context) (data : Except Failure ByteArray) :
    Compress.Context × Except Failure ByteArray :=
  let x := x.reset
  match data with
  | .error e => (x, .error e)
  | .ok data =>
    let (x, o) := (x.begin (some data.size)).run data 0 (Compress.bound data.size) .finish
    (x, match o.result with
      | .error e => .error (.codec .compressing e)
      | .ok waiting => if waiting ≠ 0 then .error .partialFlush else .ok o.out)

def modifyGetContext {α : Type} (owner : Nat) (f : Compress.Context → Compress.Context × Except Failure α) :
    SessionM α := do
  let w ← get
  match w.thing owner with
  | .compressor x =>
    set (w.setThing owner .nothing)
    let (x, result) := f x
    modify (·.setThing owner (.compressor x))
    MonadExcept.ofExcept result
  | _ => throw .noAttribute

def pledge (self : Nat) (size : Except Failure (Option Nat)) : SessionM Unit := do
  modifyContext self (·.reset)
  let pledged ← MonadExcept.ofExcept size
  modifyContext self (·.begin pledged)

def startCompressWriter (self : Nat) (a : Args) : SessionM Reply := do
  let sink := (a.getD "writer" .none).sink
  if ! sink.canWrite then throw .noWrite
  modifyContext self (·.reset)
  let size := a.getD "size" (.int (-1))
  let unknown ← size.less 0
  let room ← (a.getD "write_size" (.int Compress.recommendedRoom)).toRoom
  let pledged ← if unknown then pure none else size.toPledge
  modifyContext self (·.begin pledged)
  let w : Compress.StreamWriter := {
    room
    returnRead := (a.getD "write_return_read" (.bool true)).truth
    closesSink := (a.getD "closefd" (.bool true)).truth }
  return .made (.compressWriter (some self) w sink)

def readSizeOf (v : Value) : Except Failure Int :=
  match v.whole? with
  | some n => .ok n
  | none => .error .wrongType

def callCompressor (self : Nat) (x : Compress.Context) (c : Call) : SessionM Reply := do
  let a := c.args
  match c.method with
  | "compress" =>
    a.check ["data"] []
    return .bytes (← modifyGetContext self (compressAtOnce · (a.getD "data" .none).toBytes))
  | "compressobj" =>
    a.check [] ["size"]
    pledge self (a.getD "size" (.int (-1))).toPledge
    return .made (.compressObject self {})
  | "chunker" =>
    a.check [] ["size", "chunk_size"]
    pledge self (a.getD "size" (.int (-1))).toPledge
    let chunkSize ← (a.getD "chunk_size" (.int Compress.recommendedRoom)).toRoom
    return .made (.chunker self { chunkSize })
  | "stream_writer" =>
    a.check ["writer"] ["size", "write_size", "write_return_read", "closefd"]
    startCompressWriter self a
  | "stream_reader" =>
    a.check ["source"] ["size", "read_size", "closefd"]
    let source := (a.getD "source" .none).source
    pledge self (match source.length? with
      | some n => .ok (some n)
      | none => (a.getD "size" (.int (-1))).toPledge)
    let readSize ← readSizeOf (a.getD "read_size" (.int Compress.recommendedInput))
    let closesSource := (a.getD "closefd" (.bool true)).truth
    return .made (.compressReader self { readSize, closesSource } source)
  | "read_to_iter" =>
    a.check ["reader"] ["size", "read_size", "write_size"]
    let source := (a.getD "reader" .none).source
    let pledged := (a.getD "size" (.int (-1))).toPledge
    let readSize ← readSizeOf (a.getD "read_size" (.int Compress.recommendedInput))
    let room := (a.getD "write_size" (.int Compress.recommendedRoom)).toRoom
    return .made (.compressIterator self { pledged, readSize, room } source)
  | "copy_stream" =>
    a.check ["ifh", "ofh"] ["size", "read_size", "write_size"]
    let source := (a.getD "ifh" .none).source
    let sink := (a.getD "ofh" .none).sink
    if ! source.canRead then throw .firstNoRead
    if ! sink.canWrite then throw .secondNoWrite
    modifyContext self (·.reset)
    let pledged ← (a.getD "size" (.int (-1))).toPledge
    let room := (a.getD "write_size" (.int Compress.recommendedRoom)).toRoom
    let readSize ← readSizeOf (a.getD "read_size" (.int Compress.recommendedInput))
    let n ← onCompressor self (← addThing .nothing) (fun _ _ _ => .nothing) {} source sink
      (Compress.Copied.run pledged readSize room)
    return .value (.list [.ofNat n.read, .ofNat n.written])
  | "frame_progression" => c.plain do
    let p := x.progress
    return .value (.list [.ofNat p.ingested, .ofNat p.consumed, .ofNat p.produced])
  | "memory_size" => c.plain (return .bool true)
  | "multi_compress_to_buffer" =>
    match (← get).backend with
    | .native =>
      a.check ["data"] ["threads"]
      let workers ← workersOf a
      let inputs := (← manyOf (a.getD "data" .none)).list
      return .made (.collection (← Segments.compressMany x workers inputs))
    | .portable => c.refuse ["data"] ["threads"] (.notImplemented "")
  | _ => throw .noAttribute

end ZstCodec.Session
