import ZstCodec.Session.Compression
import ZstCodec.Session.Decompression

/-! # Calls on text streams

A text stream calls the byte stream under it as any user would, so what the byte stream answers or refuses shows through. -/

namespace ZstCodec.Session

open Text

def callInner (inner : Nat) (method : String) (args : Args) : SessionM Reply := do
  let c : Call := { method, args }
  match ← thingAt inner with
  | .compressWriter owner w sink => callCompressWriter inner owner w sink c
  | .compressReader owner r source => callCompressReader inner owner r source c
  | .decompressWriter owner w sink => callDecompressWriter inner owner w sink c
  | .decompressReader owner r source => callDecompressReader inner owner r source c
  | _ => throw .noAttribute

def Thing.isClosed : Thing → Bool
  | .compressWriter _ w _ => w.closed
  | .compressReader _ r _ => r.closed
  | .decompressWriter _ w _ => w.closed
  | .decompressReader _ r _ => r.closed
  | _ => false

def readInner (inner : Nat) (method : String) (args : Args) : SessionM ByteArray := do
  match ← callInner inner method args with
  | .value (.bytes _ b) => return b
  | _ => throw .wrongType

def checkTextOpen (inner : Nat) : SessionM Unit := do
  if (← thingAt inner).isClosed then throw .closedFile

def passOn (self inner : Nat) (t : TextStream) : SessionM TextStream := do
  if t.pending.size = 0 then return t
  let b := t.pending
  let t := { t with pending := .empty }
  putThing self (.text inner t)
  let _ ← callInner inner "write" [("data", .ofBytes b)]
  return t

/-! ### Reading -/

def startReading (self inner : Nat) (t : TextStream) : SessionM TextStream := do
  if ! t.reads then throw (.incapable "not readable")
  passOn self inner t

def readText (self inner : Nat) (t : TextStream) : SessionM String := do
  let t ← startReading self inner t
  let b ← readInner inner "read" []
  let (s, t) ← t.takeAll b
  putThing self (.text inner t)
  return s

def readLineFrom (self inner : Nat) (t : TextStream) : Nat → SessionM String
  | 0 => return ""
  | fuel + 1 => do
    match t.takeLine? with
    | some (line, t) =>
      putThing self (.text inner t)
      return line
    | none =>
      let b ← readInner inner "read1" [("size", .ofNat TextStream.chunkSize)]
      let (more, t) ← t.takeChunk b
      putThing self (.text inner t)
      if more then readLineFrom self inner t fuel
      else
        let (line, t) := t.takeRest
        putThing self (.text inner t)
        return line

def chunkLimit : Nat := 100000000

def readLine (self : Nat) : SessionM String := do
  match ← thingAt self with
  | .text inner t =>
    checkTextOpen inner
    let t ← startReading self inner t
    readLineFrom self inner t chunkLimit
  | _ => throw .noAttribute

def readLines (self : Nat) (lines : List Value) : Nat → SessionM (List Value)
  | 0 => return lines.reverse
  | fuel + 1 => do
    let line ← readLine self
    if line = "" then return lines.reverse else readLines self (.text line :: lines) fuel

/-! ### Writing -/

def writeText (self : Nat) (v : Value) : SessionM Nat := do
  match ← thingAt self, v with
  | .text inner t, .text s =>
    checkTextOpen inner
    if ! t.writes then throw (.incapable "not writable")
    let b ← t.encode s
    let t ← if t.mustPassFirst b then passOn self inner t else pure t
    let t := t.collect b
    putThing self (.text inner t)
    if t.isFull then let _ ← passOn self inner t
    return s.length
  | _, _ => throw .wrongType

def itemsToWrite : Value → Except Failure (List Value)
  | .list vs => .ok vs
  | .text s => .ok (s.toList.map fun c => .text (String.ofList [c]))
  | .bytes _ b => .ok (b.toList.map fun x => .int x.toNat)
  | .map fields => .ok (fields.map fun (name, _) => .text name)
  | _ => .error .wrongType

def flushText (self inner : Nat) (t : TextStream) : SessionM Reply := do
  checkTextOpen inner
  let _ ← passOn self inner t
  callInner inner "flush" []

def closeText (self inner : Nat) (t : TextStream) : SessionM Reply := do
  if (← thingAt inner).isClosed then return .none
  let failure ← try
      let _ ← flushText self inner t
      pure none
    catch e => pure (some e)
  let reply ← callInner inner "close" []
  match failure with
  | some e => throw e
  | none => return reply

def textProperty (inner : Nat) (t : TextStream) (name : String) : SessionM Value := do
  match name with
  | "closed" => return .bool (← thingAt inner).isClosed
  | "encoding" => return .text t.name
  | "errors" => return .text t.errors
  | "line_buffering" | "write_through" => return .bool false
  | _ => throw .noAttribute

def callText (self inner : Nat) (t : TextStream) (c : Call) : SessionM Reply := do
  let written := (c.args.get? "text").orElse fun _ => c.args.get? "data"
  match c.method with
  | "read" => c.plain do
    checkTextOpen inner
    return .value (.text (← readText self inner t))
  | "readline" => c.plain (return .value (.text (← readLine self)))
  | "readlines" | "items" => c.plain do
    checkTextOpen inner
    return .value (.list (← readLines self [] chunkLimit))
  | "write" =>
    let some v := written | throw .wrongType
    if c.args.length ≠ 1 then throw .wrongType
    return .nat (← writeText self v)
  | "writelines" =>
    let some v := written | throw .wrongType
    if c.args.length ≠ 1 then throw .wrongType
    checkTextOpen inner
    (← itemsToWrite v).forM fun v => do
      let _ ← writeText self v
    return .none
  | "flush" => c.plain (flushText self inner t)
  | "close" | "__exit__" => c.plain (closeText self inner t)
  | "__enter__" | "__iter__" =>
    checkTextOpen inner
    return .itself
  | "tell" => c.plain do
    checkTextOpen inner
    throw (.incapable "underlying stream is not seekable")
  | "readable" | "writable" | "seekable" | "isatty" | "fileno" => callInner inner c.method c.args
  | "truncate" => c.plain do
    let _ ← flushText self inner t
    callInner inner "truncate" []
  | "seek" => throw .wrongType
  | _ => throw .noAttribute

end ZstCodec.Session
