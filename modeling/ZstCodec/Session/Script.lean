import ZstCodec.Session.Open

/-! # Scripts

A script is a list of steps over one world: making an object, looking at a property, reading or writing a file, calling
a method. A step gives an answer and never ends the script. Generators do nothing before an item is asked for; one that
nobody keeps is run to its end, and one that has failed has no further items. -/

namespace ZstCodec.Session

open Pipe

inductive Step where
  | make (what : String) (name : String) (args : Args) (parts : Option (List String))
  | get (on : String) (property : String)
  | showFile (name : String)
  | putFile (name : String) (data : Value)
  /-- The result may be kept under a name, and its bytes saved under another. -/
  | call (on : String) (c : Call) (keep save : Option String)

inductive Outcome where
  | ok (v : Value)
  | filled (b : ByteArray)
  | items (vs : List Value) (failure : Option Failure)
  | failed (e : Failure)

structure Answer where
  outcome : Outcome
  events : Log

/-! ### Generators -/

def nextOf (self : Nat) : SessionM (Option ByteArray) := do
  match ← thingAt self with
  | .exhausted => return none
  | .chunkRun k run =>
    match ← thingAt k with
    | .chunker owner chunker =>
      let (item, run) ← onCompressor owner k (fun k _ _ => .chunker owner k) chunker default {}
        (Compress.Chunker.next run)
      putThing self (.chunkRun k run)
      return item
    | _ => throw .noAttribute
  | .compressIterator owner it source =>
    onCompressor owner self (fun it source _ => .compressIterator owner it source) it source {}
      Compress.Iterator.next
  | .decompressIterator owner it source =>
    onDecompressor owner self (fun it source _ => .decompressIterator owner it source) it source {}
      Decompress.Iterator.next
  | .compressReader .. | .compressWriter .. | .decompressReader .. | .decompressWriter .. => throw .unsupported
  | _ => throw .wrongType

def nextItem (self : Nat) : SessionM (Option ByteArray) := do
  try nextOf self
  catch e =>
    if (← thingAt self).kind = .generator then putThing self .exhausted
    throw e

def itemLimit : Nat := 100000000

def runItems (self : Nat) (items : List Value) : Nat → SessionM (List Value × Option Failure)
  | 0 => return (items.reverse, none)
  | fuel + 1 => do
    let next ← try Except.ok <$> nextItem self catch e => pure (.error e)
    match next with
    | .error e => return (items.reverse, some e)
    | .ok none => return (items.reverse, none)
    | .ok (some b) => runItems self (.ofBytes b :: items) fuel

def drain (self : Nat) : SessionM Outcome := do
  let (items, failure) ← runItems self [] itemLimit
  return .items items failure

/-! ### Properties -/

def dictionaryProperty (d : HeldDictionary) : String → SessionM Value
  | "k" => return d.k
  | "d" => return d.d
  | "dict_id" | "as_bytes" | "precompute_compress" => return .object .method
  | _ => throw .noAttribute

def property (t : Thing) (name : String) : SessionM Value := do
  match t with
  | .settings s => match parameterTable.lookup name with
    | some (p, _) => return .int (s.get p)
    | none => throw .noAttribute
  | .dictionary d => dictionaryProperty d name
  | .compressWriter _ w _ => if name = "closed" then return .bool w.closed else throw .noAttribute
  | .compressReader _ r _ => if name = "closed" then return .bool r.closed else throw .noAttribute
  | .decompressWriter _ w _ => if name = "closed" then return .bool w.closed else throw .noAttribute
  | .decompressReader _ r _ => if name = "closed" then return .bool r.closed else throw .noAttribute
  | .decompressObject _ o => match name with
    | "eof" => return .bool o.finished
    | "unused_data" => return .ofBytes o.unused
    | "unconsumed_tail" => return .ofBytes .empty
    | _ => throw .noAttribute
  | .buffer b => if name = "size" then return .ofNat b.data.size else throw .noAttribute
  | .text inner t => textProperty inner t name
  | .segment p => if name = "offset" then return .ofNat p.offset else throw .noAttribute
  | .hollow k => match k, name with
    | .segment, "offset" | .buffer, "size" => throw (.notImplemented "")
    | _, _ => throw .noAttribute
  | _ => throw .noAttribute

/-! ### Calls -/

def callDictionary (self : Nat) (d : HeldDictionary) (c : Call) : SessionM Reply := do
  match c.method with
  | "len" => return .nat d.bytes.size
  | "dict_id" => c.plain (return .nat (ZstCodec.Dictionary.identifier d.bytes))
  | "as_bytes" => c.plain (return .bytes d.bytes)
  | "precompute_compress" =>
    putThing self (.dictionary (← precomputeWith d c.args))
    return .none
  | "item" | "items" => throw .wrongType
  | _ => throw .noAttribute

def partValue (p : Segments.Part) : Value := .segment p.offset p.bytes

def callBuffer (b : Segments.Buffer) (c : Call) : SessionM Reply := do
  match c.method with
  | "len" => return .nat b.count
  | "item" => return .made (.segment (← b.partAt (← Segments.placeOf b.count c.index)))
  | "items" => return .value (.list ((← (List.range b.count).mapM fun i => b.partAt i).map partValue))
  | "tobytes" => c.plain (return .bytes b.data)
  | "segments" => c.plain (return .made (.segmentList (Segments.writeSegments b.segments)))
  | _ => throw .noAttribute

def callCollection (k : Segments.Collection) (c : Call) : SessionM Reply := do
  match c.method with
  | "len" => return .nat k.count
  | "item" => return .made (.segment (← k.partAt (← Segments.placeOf k.count c.index)))
  | "items" => return .value (.list ((← (List.range k.count).mapM fun i => k.partAt i).map partValue))
  | "size" => c.plain (return .nat (k.total % 2 ^ 64))
  | _ => throw .noAttribute

def callSegment (p : Segments.Part) (c : Call) : SessionM Reply := do
  match c.method with
  | "len" => return .nat p.bytes.size
  | "items" => throw .wrongType
  | "tobytes" => c.plain (return .bytes p.bytes)
  | _ => throw .noAttribute

def callHollow (kind : ObjectKind) (c : Call) : SessionM Reply := do
  match kind, c.method with
  | .segment, "len" | .buffer, "len" | .collection, "len"
  | .buffer, "item" | .collection, "item" | .buffer, "items" | .collection, "items" => throw (.notImplemented "")
  | .segment, "tobytes" | .buffer, "tobytes" | .buffer, "segments" => c.refuse [] [] (.notImplemented "")
  | .segment, "item" | .segment, "items" => throw .wrongType
  | _, _ => throw .noAttribute

def callCommon (self : Nat) (t : Thing) (c : Call) : SessionM (Option Reply) := do
  match c.method, t with
  | "len", .dictionary _ | "len", .hollow _ | "len", .buffer _ | "len", .collection _ | "len", .segment _ => return none
  | "len", _ => throw .wrongType
  | "item", .hollow _ | "item", .buffer _ | "item", .collection _ => return none
  | "item", _ => throw .wrongType
  | "next", .text .. =>
    let line ← readLine self
    return some (.value (if line = "" then .stop else .text line))
  | "next", _ =>
    match ← nextItem self with
    | some b => return some (.bytes b)
    | none => return some (.value .stop)
  | _, _ => return none

def callMethod (self : Nat) (t : Thing) (c : Call) : SessionM Reply := do
  match ← callCommon self t c with
  | some r => return r
  | none =>
    match t with
    | .compressor x => callCompressor self x c
    | .decompressor _ => callDecompressor self c
    | .compressObject owner o => callCompressObject self owner o c
    | .chunker .. => callChunker self c
    | .compressWriter owner w sink => callCompressWriter self owner w sink c
    | .compressReader owner r source => callCompressReader self owner r source c
    | .decompressObject owner o => callDecompressObject self owner o c
    | .decompressWriter owner w sink => callDecompressWriter self owner w sink c
    | .decompressReader owner r source => callDecompressReader self owner r source c
    | .dictionary d => callDictionary self d c
    | .settings _ =>
      if c.method = "estimated_compression_context_size" then c.plain (return .bool true) else throw .noAttribute
    | .buffer b => callBuffer b c
    | .collection k => callCollection k c
    | .segment p => callSegment p c
    | .text inner t => callText self inner t c
    | .hollow kind => callHollow kind c
    | _ => throw .noAttribute

/-! ### Steps -/

def kindOf? : String → Option ObjectKind
  | "BufferSegment" => some .segment
  | "BufferWithSegments" => some .buffer
  | "BufferWithSegmentsCollection" => some .collection
  | _ => none

def buffersOf (names : List String) : SessionM (List Segments.Buffer) :=
  names.mapM fun name => do
    match (← get).names.lookup name with
    | none => throw .wrongType
    | some i => match ← thingAt i with
      | .buffer b => return b
      | _ => throw .wrongType

def makeSegments (kind : ObjectKind) (a : Args) (parts : Option (List String)) : SessionM Thing := do
  match kind with
  | .buffer =>
    a.check ["data", "segments"] []
    return .buffer (← Segments.Buffer.ofWritten (← (a.getD "data" .none).toBytes) (← (a.getD "segments" .none).toBytes))
  | .collection =>
    a.check [] []
    return .collection (← Segments.Collection.ofBuffers (← buffersOf (parts.getD [])))
  | _ => return .segment { offset := 0, bytes := .empty }

def makeThing (what : String) (a : Args) (parts : Option (List String)) : SessionM Thing := do
  match what with
  | "ZstdCompressor" => return .compressor (← makeCompressor a)
  | "ZstdDecompressor" => return .decompressor (← makeDecompressor a)
  | "ZstdCompressionDict" => return .dictionary (← dictionaryOf a)
  | "ZstdCompressionParameters" => return .settings (← settingsOf (← get).processors a)
  | "open" => openThing a
  | "from_level" => return .settings (← settingsOfLevel (← get).processors a)
  | _ => match kindOf? what with
    | some kind =>
      if (← get).backend = .native then return ← makeSegments kind a parts
      if ! a.isEmpty || ! (parts.getD []).isEmpty then throw .wrongType
      return .hollow kind
    | none => throw .noAttribute

def checkNamed : Value → SessionM Unit
  | .named name => do
    let _ ← findNamed name
  | .list vs => vs.forM fun
    | .named name => do
      let _ ← findNamed name
    | _ => pure ()
  | _ => pure ()

def seen : Value → SessionM Value
  | .named name => do
    match ← thingAt (← findNamed name) with
    | .buffer b => return .bytes .view b.data
    | .segment p => return .bytes .view p.bytes
    | .segmentList b => return .bytes .view b
    | _ => return .named name
  | v => return v

/-- The arguments of a call, where objects that hold bytes are seen as such. -/
def seenArgs (method : String) (a : Args) : SessionM Args :=
  a.mapM fun (name, v) => do
    match v with
    | .list vs => return (name, .list (← vs.mapM seen))
    | v =>
      if (name = "data" || name = "frames") && (method.startsWith "multi_") then return (name, v)
      else return (name, ← seen v)

def keepAs (name : String) (i : Nat) : SessionM Unit := modify (·.name name i)

def Outcome.bytes? : Outcome → Option ByteArray
  | .ok (.bytes _ b) => some b
  | _ => none

def runCall (on : String) (c : Call) (keep : Option String) : SessionM Outcome := do
  let self ← findNamed on
  c.args.forM fun (_, v) => checkNamed v
  let t ← thingAt self
  if c.method = "drain" then
    if t.kind ≠ .generator then throw .wrongType
    return ← drain self
  let c := { c with args := ← seenArgs c.method c.args }
  match ← callMethod self t c with
  | .value v => return .ok v
  | .filled b => return .filled b
  | .itself =>
    if let some name := keep then keepAs name self
    return .ok (.object t.kind)
  | .made t =>
    let i ← addThing t
    match keep with
    | some name =>
      keepAs name i
      return .ok (.object t.kind)
    | none => match t with
      | .segment p => return .ok (partValue p)
      | .segmentList b => return .ok (.segments b)
      | _ => if t.kind = .generator then drain i else return .ok (.object t.kind)

def runStep : Step → SessionM Outcome
  | .make what name a parts => do
    a.forM fun (_, v) => checkNamed v
    let t ← makeThing what (← seenArgs what a) parts
    keepAs name (← addThing t)
    return .ok (.object t.kind)
  | .get on name => do
    return .ok (← property (← thingAt (← findNamed on)) name)
  | .showFile name => do
    match (← get).files.lookup name with
    | some b => return .ok (.ofBytes b)
    | none => throw .fileNotFound
  | .putFile name data => do
    let b ← data.toBytes
    modify fun w => { w with files := putEntry w.files name b }
    return .ok .none
  | .call on c keep save => do
    let o ← runCall on c keep
    if let (some name, some b) := (save, o.bytes?) then
      modify fun w => { w with saved := putEntry w.saved name b }
    return o

def step (s : Step) (w : World) : Answer × World :=
  let (result, w) := Id.run ((runStep s).run.run { w with log := #[] })
  let w := w.settleFiles
  let events := w.log
  ({ outcome := match result with | .ok o => o | .error e => .failed e, events }, { w with log := #[] })

end ZstCodec.Session
