import ZstCodec.Session.Reply
import ZstCodec.Session.Make

/-! # Calls on decompressors and their streams -/

namespace ZstCodec.Session

open Pipe

/-! ### Objects -/

def callDecompressObject (self owner : Nat) (o : Decompress.Object) (c : Call) : SessionM Reply := do
  match c.method with
  | "decompress" =>
    c.args.check ["data"] []
    return .bytes (← onDecompressor owner self (fun o _ _ => .decompressObject owner o) o default {}
      (Decompress.Object.decompress (c.args.getD "data" .none).toBytes))
  | "flush" =>
    c.args.check [] ["length"]
    return .bytes .empty
  | _ => throw .noAttribute

/-! ### Writers -/

open Decompress.StreamWriter in
def callDecompressWriter (self owner : Nat) (w : Decompress.StreamWriter) (sink : Sink) (c : Call) :
    SessionM Reply := do
  let run {α : Type} (act : Action α) : SessionM α :=
    onDecompressor owner self (fun w _ sink => .decompressWriter owner w sink) w default sink act
  match c.method with
  | "write" =>
    c.args.check ["data"] []
    return .nat (← run (write (c.args.getD "data" .none).toBytes))
  | "flush" => c.plain do
    run flush
    return .none
  | "close" => c.plain do
    run close
    return .none
  | "__enter__" => do
    run enter
    return .itself
  | "__exit__" => do
    run leave
    return .bool false
  | "fileno" => c.plain (sinkFileno sink)
  | "memory_size" => c.plain (return .bool true)
  | "isatty" | "readable" | "seekable" => c.plain (return .bool false)
  | "writable" => c.plain (return .bool true)
  | "writelines" => c.refuse ["data"] [] .unsupported
  | "seek" => c.refuse ["offset"] ["whence"] .unsupported
  | "truncate" | "read" | "readline" => c.refuse [] ["size"] .unsupported
  | "readlines" => c.refuse [] ["hint"] .unsupported
  | "tell" | "readinto" | "readall" | "__iter__" | "__next__" => c.refuse [] [] .unsupported
  | _ => throw .noAttribute

/-! ### Readers -/

def whenceOf (v : Value) : Decompress.StreamReader.Whence :=
  if v.isNumber 0 then .start
  else if v.isNumber 1 then .current
  else if v.isNumber 2 then .stop
  else .unknown

def seekPlace (v : Value) (whence : Decompress.StreamReader.Whence) : Except Failure Int :=
  match whence with
  | .start | .current => match v.whole? with
    | some n => .ok n
    | none => do if ← v.less 0 then return -1 else throw .wrongType
  | _ => .ok 0

open Decompress.StreamReader in
def callDecompressReader (self owner : Nat) (r : Decompress.StreamReader) (source : Source) (c : Call) :
    SessionM Reply := do
  let run {α : Type} (act : Action α) : SessionM α :=
    onDecompressor owner self (fun r source _ => .decompressReader owner r source) r source {} act
  let reader : Reader := {
    closed := r.closed
    total := r.total
    recommendedRoom := Decompress.recommendedRoom
    readInto := fun n once => run (readInto n once)
    readAll := run readAll
    close := run close
    enter := run enter
    leave := run leave }
  match c.method with
  | "seek" =>
    c.args.check ["pos"] ["whence"]
    reader.checkOpen
    let whence := whenceOf (c.args.getD "whence" (.int 0))
    let pos ← seekPlace (c.args.getD "pos" .none) whence
    return .nat (← run (seek pos whence))
  | "write" | "writelines" => c.refuse ["data"] [] .unsupported
  | "readline" => c.refuse [] ["size"] .unsupported
  | "readlines" => c.refuse [] ["hint"] .unsupported
  | _ => reader.call c

/-! ### Decompressors -/

def modifyGetStream {α : Type} (owner : Nat) (f : Decompress.Stream → Decompress.Stream × Except Failure α) :
    SessionM α := do
  let w ← get
  match w.thing owner with
  | .decompressor s =>
    set (w.setThing owner .nothing)
    let (s, result) := f s
    modify (·.setThing owner (.decompressor s))
    MonadExcept.ofExcept result
  | _ => throw .noAttribute

/-- What is done about input behind a frame; the native backend looks only if the room is full. -/
def extraOf (backend : Backend) (allowed : Bool) : Decompress.Extra :=
  if allowed then .allowed else match backend with
    | .native => .refusedWhenFull
    | .portable => .refused

def decompressAtOnce (backend : Backend) (s : Decompress.Stream) (a : Args) : Decompress.Stream × Except Failure ByteArray :=
  if (a.getD "read_across_frames" (.bool false)).truth then (s, .error .acrossFramesUnsupported)
  else
    let s := s.reset
    match (a.getD "data" .none).toBytes with
    | .error e => (s, .error e)
    | .ok data =>
      let most := a.getD "max_output_size" (.int 0)
      Decompress.decompress s data (if most.truth then some most.toRoom else none)
        (extraOf backend (a.getD "allow_extra_data" (.bool true)).truth)

def linksOf (frames : List Value) : List (Except Failure ByteArray) :=
  frames.mapIdx fun i v => match v with
    | .bytes .constant b => .ok b
    | _ => .error (.linkNotBytes i)

/-- Decode a chain of frames. Only the native backend takes contents as dictionaries. -/
def decompressChain (backend : Backend) (s : Decompress.Stream) : Value → Decompress.Stream × Except Failure ByteArray
  | .list [] => (s, .error .emptyChain)
  | .list frames => match backend with
    | .native => Decompress.decodeChain s.restart (linksOf frames)
    | .portable => Decompress.decodeLinks s.restart 0 .empty (linksOf frames)
  | _ => (s, .error .wrongType)

def framesOf (a : Args) : SessionM (List Segments.Framed) := do
  let sizes ← match a.get? "decompressed_sizes" with
    | none => pure none
    | some v => some <$> v.toBytes
  let sizeAt (i : Nat) : Nat := match sizes with | none => 0 | some b => le64 b (8 * i)
  let (frames, mismatch) ← match ← manyOf (a.getD "frames" .none) with
    | .bytes bs => pure (bs, fun n => if n = 8 * bs.length then none else some (Failure.sizesMismatch (8 * bs.length) n))
    | .collection c =>
      let bs := c.parts.map (·.bytes)
      pure (bs, fun n => if n = bs.length then none else some (.collectionSizesMismatch (8 * bs.length) n))
  if let some e := sizes.bind fun b => mismatch b.size then throw e
  return frames.mapIdx fun i frame => { frame, size := sizeAt i }

def decompressFrames (s : Decompress.Stream) (a : Args) : SessionM Reply := do
  let workers ← workersOf a
  return .made (.collection (← Segments.decompressMany s.own workers (← framesOf a)))

def callDecompressor (self : Nat) (c : Call) : SessionM Reply := do
  let a := c.args
  match c.method with
  | "decompress" =>
    a.check ["data"] ["max_output_size", "read_across_frames", "allow_extra_data"]
    let backend := (← get).backend
    return .bytes (← modifyGetStream self (decompressAtOnce backend · a))
  | "decompressobj" =>
    a.check [] ["write_size", "read_across_frames"]
    let size := a.getD "write_size" (.int Decompress.recommendedRoom)
    if ← size.less 1 then throw .writeSizePositive
    resetStream self
    return .made (.decompressObject self {
      room := size.toRoom
      acrossFrames := (a.getD "read_across_frames" (.bool false)).truth })
  | "stream_reader" =>
    a.check ["source"] ["read_size", "read_across_frames", "closefd"]
    resetStream self
    let r : Decompress.StreamReader := {
      readSize := ((a.getD "read_size" (.int Decompress.recommendedInput)).whole?).getD 0
      acrossFrames := (a.getD "read_across_frames" (.bool false)).truth
      closesSource := (a.getD "closefd" (.bool true)).truth }
    return .made (.decompressReader self r (a.getD "source" .none).source)
  | "stream_writer" =>
    a.check ["writer"] ["write_size", "write_return_read", "closefd"]
    let sink := (a.getD "writer" .none).sink
    if ! sink.canWrite then throw .noWrite
    resetStream self
    let w : Decompress.StreamWriter := {
      room := (a.getD "write_size" (.int Decompress.recommendedRoom)).toRoom
      returnRead := (a.getD "write_return_read" (.bool true)).truth
      closesSink := (a.getD "closefd" (.bool true)).truth }
    return .made (.decompressWriter self w sink)
  | "read_to_iter" =>
    a.check ["reader"] ["read_size", "write_size", "skip_bytes"]
    let it : Decompress.Iterator := {
      readSize := ((a.getD "read_size" (.int Decompress.recommendedInput)).whole?).getD 0
      room := (a.getD "write_size" (.int Decompress.recommendedRoom)).toRoom
      skip := ((a.getD "skip_bytes" (.int 0)).whole?).getD 0 }
    return .made (.decompressIterator self it (a.getD "reader" .none).source)
  | "copy_stream" =>
    a.check ["ifh", "ofh"] ["read_size", "write_size"]
    let source := (a.getD "ifh" .none).source
    let sink := (a.getD "ofh" .none).sink
    if ! source.canRead then throw .firstNoRead
    if ! sink.canWrite then throw .secondNoWrite
    let room := (a.getD "write_size" (.int Decompress.recommendedRoom)).toRoom
    let readSize := ((a.getD "read_size" (.int Decompress.recommendedInput)).whole?).getD 0
    let n ← onDecompressor self (← addThing .nothing) (fun _ _ _ => .nothing) {} source sink
      (Decompress.Copied.run readSize room)
    return .value (.list [.ofNat n.read, .ofNat n.written])
  | "decompress_content_dict_chain" =>
    a.check ["frames"] []
    let backend := (← get).backend
    return .bytes (← modifyGetStream self (decompressChain backend · (a.getD "frames" .none)))
  | "memory_size" => c.plain (return .bool true)
  | "multi_decompress_to_buffer" =>
    match (← get).backend, ← thingAt self with
    | .native, .decompressor s =>
      a.check ["frames"] ["decompressed_sizes", "threads"]
      decompressFrames s a
    | _, _ => c.refuse ["frames"] ["decompressed_sizes", "threads"] (.notImplemented "")
  | _ => throw .noAttribute

end ZstCodec.Session
