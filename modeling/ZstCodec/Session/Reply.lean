import ZstCodec.Session.World

/-! # Replies

What an operation on an object gives back: a value, a new object, the object itself, or bytes in a place that the caller
provided. -/

namespace ZstCodec.Session

open Pipe

inductive Reply where
  | value (v : Value)
  | made (t : Thing)
  | itself
  | filled (b : ByteArray)

namespace Reply

def none : Reply := .value .none

def bool (b : Bool) : Reply := .value (.bool b)

def nat (n : Nat) : Reply := .value (.int n)

def bytes (b : ByteArray) : Reply := .value (.ofBytes b)

end Reply

/-- A call of a method. -/
structure Call where
  method : String
  args : Args
  size : Nat := 0
  index : Int := 0

def Call.plain (c : Call) (act : SessionM Reply) : SessionM Reply := do
  c.args.check [] []
  act

def Call.refuse (c : Call) (required optional : List String) (e : Failure) : SessionM Reply := do
  c.args.check required optional
  throw e

def readingLength (v : Value) : Except Failure (Option Value) := do
  if ← v.less (-1) then throw .negativeRead
  return if v.isNumber (-1) then none else some v

def sinkFileno (s : Sink) : SessionM Reply :=
  match s.fileno with
  | some n => return .value (.int n)
  | none => throw .noFileno

/-! ### Readers -/

/-- What readers differ in. -/
structure Reader where
  closed : Bool
  ended : Bool := false
  total : Nat
  recommendedRoom : Nat
  readInto : Nat → Bool → SessionM ByteArray
  readAll : SessionM ByteArray
  close : SessionM Unit
  enter : SessionM Unit
  leave : SessionM Unit

namespace Reader

def checkOpen (r : Reader) : SessionM Unit := if r.closed then throw .closed else pure ()

def readAtMost (r : Reader) (v : Value) (once : Bool) : SessionM Reply := do
  if r.ended || v.isNumber 0 then return .bytes .empty
  let room ← v.toRoom
  return .bytes (← r.readInto room once)

def call (r : Reader) (c : Call) : SessionM Reply := do
  match c.method with
  | "read" | "read1" =>
    c.args.check [] ["size"]
    r.checkOpen
    let once := c.method = "read1"
    match ← readingLength (c.args.getD "size" (.int (-1))) with
    | some v => r.readAtMost v once
    | none => if once then r.readAtMost (.int r.recommendedRoom) true else return .bytes (← r.readAll)
  | "readall" => c.plain (return .bytes (← r.readAll))
  | "readinto" | "readinto1" => c.plain (return .filled (← r.readInto c.size (c.method = "readinto1")))
  | "close" => c.plain do
    r.close
    return .none
  | "__enter__" => do
    r.enter
    return .itself
  | "__exit__" => do
    r.leave
    return .bool false
  | "tell" => c.plain (return .nat r.total)
  | "flush" => c.plain (return .none)
  | "readable" => c.plain (return .bool true)
  | "writable" | "seekable" | "isatty" => c.plain (return .bool false)
  | "__iter__" | "__next__" | "next" => c.refuse [] [] .unsupported
  | _ => throw .noAttribute

end Reader

/-! ### Many inputs -/

/-- Inputs that are handled together. -/
inductive Many where
  | bytes (bs : List ByteArray)
  | collection (c : Segments.Collection)

def Many.list : Many → List ByteArray
  | bytes bs => bs
  | collection c => c.parts.map (·.bytes)

def manyOf : Value → SessionM Many
  | .list vs => return .bytes (← vs.mapM fun v => v.toBytes)
  | .named name => do
    match ← thingAt (← findNamed name) with
    | .buffer b => return .bytes (b.parts.map (·.bytes))
    | .collection c => return .collection c
    | _ => throw .wrongType
  | _ => throw .wrongType

def workersOf (a : Args) : SessionM Nat := do
  let n ← (a.getD "threads" (.int 0)).toWord
  let all := (← get).processors
  let n := if n < 0 then all else n
  return if n < 2 then 1 else n.toNat

end ZstCodec.Session
