import ZstCodec.Session.Value
import ZstCodec.Compress.StreamWriter
import ZstCodec.Compress.StreamReader
import ZstCodec.Compress.Chunker
import ZstCodec.Compress.Iterator
import ZstCodec.Decompress.StreamWriter
import ZstCodec.Decompress.StreamReader
import ZstCodec.Decompress.Iterator
import ZstCodec.Segments.Many
import ZstCodec.Backend.Choice
import ZstCodec.Text.Stream

/-! # The world of a session

Streams belong to the codec that made them and share it. Objects stand in one array and are referred to by their place;
names refer to places, so two names may stand for one object. An operation changes the world also if it fails. -/

namespace ZstCodec.Session

open Pipe

/-- A dictionary as users hold it. -/
structure HeldDictionary where
  bytes : ByteArray
  type : ZstCodec.Dictionary.ContentType
  k : Value
  d : Value
  prepared : Option Compress.Dictionary := none
  deriving Inhabited

/-- An object of a session. Owners are given by their places. -/
inductive Thing where
  | nothing
  | settings (s : Settings)
  | dictionary (d : HeldDictionary)
  | compressor (x : Compress.Context)
  | decompressor (s : Decompress.Stream)
  | compressObject (owner : Nat) (o : Compress.Object)
  | chunker (owner : Nat) (k : Compress.Chunker)
  | compressWriter (owner : Option Nat) (w : Compress.StreamWriter) (sink : Sink)
  | compressReader (owner : Nat) (r : Compress.StreamReader) (source : Source)
  | decompressObject (owner : Nat) (o : Decompress.Object)
  | decompressWriter (owner : Nat) (w : Decompress.StreamWriter) (sink : Sink)
  | decompressReader (owner : Nat) (r : Decompress.StreamReader) (source : Source)
  -- Generators
  | chunkRun (chunker : Nat) (run : Compress.Chunker.Run)
  | compressIterator (owner : Nat) (it : Compress.Iterator) (source : Source)
  | decompressIterator (owner : Nat) (it : Decompress.Iterator) (source : Source)
  | exhausted
  -- Buffers
  | buffer (b : Segments.Buffer)
  | collection (c : Segments.Collection)
  | segment (p : Segments.Part)
  | segmentList (b : ByteArray)
  | text (inner : Nat) (t : Text.TextStream)
  | hollow (kind : ObjectKind)

def Thing.kind : Thing → ObjectKind
  | nothing | exhausted | chunkRun .. | compressIterator .. | decompressIterator .. => .generator
  | settings _ => .settings
  | dictionary _ => .dictionary
  | compressor _ => .compressor
  | decompressor _ => .decompressor
  | compressObject .. => .compressObject
  | chunker .. => .chunker
  | compressWriter .. => .compressWriter
  | compressReader .. => .compressReader
  | decompressObject .. => .decompressObject
  | decompressWriter .. => .decompressWriter
  | decompressReader .. => .decompressReader
  | buffer _ => .buffer
  | collection _ => .collection
  | segment _ => .segment
  | segmentList _ => .segmentList
  | text .. => .text
  | hollow k => k

structure World where
  things : Array Thing := #[]
  names : List (String × Nat) := []
  saved : List (String × ByteArray) := []
  files : List (String × ByteArray) := []
  log : Log := #[]
  backend : Backend := .portable
  processors : Int := 1

/-- An operation in a session. -/
abbrev SessionM := ExceptT Failure (StateM World)

def putEntry {α : Type} (xs : List (String × α)) (name : String) (a : α) : List (String × α) :=
  (name, a) :: xs.filter (·.1 ≠ name)

namespace World

def thing (w : World) (i : Nat) : Thing := w.things.getD i .nothing

def setThing (w : World) (i : Nat) (t : Thing) : World := { w with things := w.things.setIfInBounds i t }

def add (w : World) (t : Thing) : Nat × World := (w.things.size, { w with things := w.things.push t })

def name (w : World) (s : String) (i : Nat) : World := { w with names := putEntry w.names s i }

def settleFiles (w : World) : World :=
  w.log.foldl
    (fun w e => match e with
      | .file name b => { w with files := putEntry w.files name ((w.files.lookup name).getD .empty ++ b) }
      | e => { w with log := w.log.push e })
    { w with log := #[] }

end World

def findNamed (name : String) : SessionM Nat := do
  match (← get).names.lookup name with
  | some i => return i
  | none => throw .noObject

def thingAt (i : Nat) : SessionM Thing := return (← get).thing i

def putThing (i : Nat) (t : Thing) : SessionM Unit := modify (·.setThing i t)

def addThing (t : Thing) : SessionM Nat := modifyGet (·.add t)

/-! ### Operations of streams -/

variable {κ σ α : Type}

/-- Run an operation: `take` finds the codec, `give` and `rebuild` put codec and object back. -/
def runAct (owner self : Nat) (take : Thing → Option κ) (give : κ → Thing) (rebuild : σ → Source → Sink → Thing)
    (object : σ) (source : Source) (sink : Sink) (act : Act κ σ α) : SessionM α := do
  let w ← get
  match take (w.thing owner) with
  | none => throw .noAttribute
  | some codec =>
    let log := w.log
    set { w.setThing owner .nothing with log := #[] }
    let (result, desk) := Id.run ((act.run : StateM (Desk κ σ) (Except Failure α)).run ⟨codec, object, source, sink, log⟩)
    let ⟨codec, object, source, sink, log⟩ := desk
    modify fun w => { (w.setThing owner (give codec)).setThing self (rebuild object source sink) with log }
    MonadExcept.ofExcept result

def Thing.context? : Thing → Option Compress.Context
  | compressor x => some x
  | _ => none

def Thing.stream? : Thing → Option Decompress.Stream
  | decompressor s => some s
  | _ => none

def onCompressor (owner self : Nat) (rebuild : σ → Source → Sink → Thing) (object : σ) (source : Source) (sink : Sink)
    (act : Act Compress.Context σ α) : SessionM α :=
  runAct owner self Thing.context? .compressor rebuild object source sink act

def onDecompressor (owner self : Nat) (rebuild : σ → Source → Sink → Thing) (object : σ) (source : Source) (sink : Sink)
    (act : Act Decompress.Stream σ α) : SessionM α :=
  runAct owner self Thing.stream? .decompressor rebuild object source sink act

def modifyContext (owner : Nat) (f : Compress.Context → Compress.Context) : SessionM Unit := do
  let w ← get
  match w.thing owner with
  | .compressor x =>
    set (w.setThing owner .nothing)
    modify (·.setThing owner (.compressor (f x)))
  | _ => throw .noAttribute

def resetStream (owner : Nat) : SessionM Unit := do
  match ← thingAt owner with
  | .decompressor s => putThing owner (.decompressor s.reset)
  | _ => throw .noAttribute

end ZstCodec.Session
