import ZstCodec.Session.Text

/-! # Opening files

A file or a device is opened for reading through a decompressor or for writing through a compressor, as bytes or as
text. Checks come in a fixed order: the mode, the codec, the file, the stream over it, and the text over that. What an
earlier one has done stays done. -/

namespace ZstCodec.Session

open Text

/-- What opening does about the file. -/
inductive Access where
  | read
  | write
  | append
  | create
  deriving DecidableEq, Repr

structure OpenMode where
  access : Access
  asText : Bool
  deriving DecidableEq, Repr

/-- A mode is a letter for the access, and one for bytes; letters for text may stand anywhere. -/
def OpenMode.ofString? (s : String) : Option OpenMode :=
  match s.toList.filter (· ≠ 't') with
  | ['r'] => some ⟨.read, true⟩
  | ['r', 'b'] => some ⟨.read, false⟩
  | ['w'] => some ⟨.write, true⟩
  | ['w', 'b'] => some ⟨.write, false⟩
  | ['a'] => some ⟨.append, true⟩
  | ['a', 'b'] => some ⟨.append, false⟩
  | ['x'] => some ⟨.create, true⟩
  | ['x', 'b'] => some ⟨.create, false⟩
  | _ => none

def openFile (name : String) (access : Access) : SessionM DeviceSpec := do
  let w ← get
  let isDirectory := name = "" || name = "." || name = ".." || w.files.any fun (other, _) => other.startsWith (name ++ "/")
  if isDirectory then throw (if access = .create then .fileExists else .directory)
  match access, w.files.lookup name with
  | .read, some data => return { writes := false, tag := name, data, file := some name }
  | .read, none => throw .fileNotFound
  | .create, some _ => throw .fileExists
  | .append, some _ => return { writes := true, tag := name, file := some name }
  | _, known =>
    -- a new file needs its directory
    if known.isNone && name.contains '/' then throw .fileNotFound
    set { w with files := putEntry w.files name .empty }
    return { writes := true, tag := name, file := some name }

/-- A device and whether it is closed with the stream over it. A file always is. -/
def deviceOf (v : Value) (access : Access) (closes : Value) : SessionM (DeviceSpec × Bool) := do
  match v with
  | .path name | .text name => return (← openFile name access, true)
  | .bytes .constant b => return (← openFile (String.fromUTF8? b |>.getD "/") access, true)
  | .device d => if d.giver.canRead || d.sink.canWrite then return (d, closes.truth) else throw .wrongType
  | _ => throw .wrongType

def codecOf (v : Value) (fresh : SessionM Thing) : SessionM Nat := do
  match v with
  | .named name => findNamed name
  | v => if v.truth then addThing .nothing else addThing (← fresh)

def streamOver (codec : Nat) (d : DeviceSpec) (access : Access) (closes : Bool) : SessionM Thing := do
  let c : Call :=
    if access = .read then { method := "stream_reader", args := [("source", .device d), ("closefd", .bool closes)] }
    else { method := "stream_writer", args := [("writer", .device d), ("closefd", .bool closes)] }
  let reply ← match ← thingAt codec with
    | .compressor x => callCompressor codec x c
    | .decompressor _ => callDecompressor codec c
    | _ => throw .noAttribute
  match reply with
  | .made t => return t
  | _ => throw .noAttribute

def optionalText : Value → Except Failure (Option String)
  | .none => .ok none
  | .text s => .ok (some s)
  | _ => .error .wrongType

def encodingOf (name : Option String) : Except Failure (Encoding × String) :=
  match name with
  | none | some "locale" => .ok (.utf8, "UTF-8")
  | some name => match Encoding.ofName? name with
    | some e => .ok (e, name)
    | none => .error .unknownEncoding

def textOver (stream : Thing) (a : Args) : Except Failure TextStream := do
  let name ← optionalText (a.getD "encoding" .none)
  let newline ← optionalText (a.getD "newline" .none)
  let errors ← optionalText (a.getD "errors" .none)
  let some mark := Newline.ofText? newline | throw (.illegalNewline (newline.getD ""))
  let (encoding, name) ← encodingOf name
  let reads := match stream with | .compressReader .. | .decompressReader .. => true | _ => false
  return { encoding, name, errors := errors.getD "strict", newline := mark, reads, writes := ! reads }

def openThing (a : Args) : SessionM Thing := do
  a.check ["filename"] ["mode", "cctx", "dctx", "encoding", "errors", "newline", "closefd"]
  let s ← match a.getD "mode" (.text "rb") with
    | .text s => pure s
    | .bytes .. => throw .wrongType
    | _ => throw .noAttribute
  let some mode := OpenMode.ofString? s | throw (.invalidMode (Failure.quoted s))
  let codec ←
    if mode.access = .read then codecOf (a.getD "dctx" .none) (return .decompressor (← makeDecompressor []))
    else codecOf (a.getD "cctx" .none) (return .compressor (← makeCompressor []))
  let (d, closes) ← deviceOf (a.getD "filename" .none) mode.access (a.getD "closefd" .none)
  let stream ← streamOver codec d mode.access closes
  if ! mode.asText then return stream
  let t ← textOver stream a
  return .text (← addThing stream) t

end ZstCodec.Session
