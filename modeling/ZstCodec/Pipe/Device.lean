import ZstCodec.Bytes
import ZstCodec.Failure

/-! # Sources and sinks

A source is a byte string that is there as a whole, or a device that gives bytes call by call: at most as many as asked
for, at most a limit of its own, and after some calls nothing but a failure. A sink is a device that takes bytes, of
whose calls any may fail. What a device sees is noted in a log. A device may also be a named file, whose bytes are
collected and written in large pieces. -/

namespace ZstCodec.Pipe

/-- Something a device saw. -/
inductive Event where
  | read (tag : String) (asked : Int) (given : Nat)
  | write (tag : String) (bytes : ByteArray)
  | flush (tag : String)
  | close (tag : String)
  | file (name : String) (bytes : ByteArray)

abbrev Log := Array Event

/-- Who takes note of what a device sees. -/
inductive Kind where
  | noted (tag : String)
  | file (name : String)
  deriving DecidableEq, Repr

/-! ### Sources -/

/-- A device that gives bytes. -/
structure Giver where
  kind : Kind := .noted "src"
  data : ByteArray := .empty
  pos : Nat := 0
  most : Nat → Option Nat := fun _ => none
  failAt : Option Nat := none
  calls : Nat := 0
  canRead : Bool := true
  canClose : Bool := true
  fileno : Option Int := none

inductive Source where
  | buffer (b : ByteArray)
  | device (g : Giver)
  /-- Neither; its length, if it has one, and whether parts of it can be taken. -/
  | other (length : Option Nat) (parts : Bool)

instance : Inhabited Source := ⟨.other none false⟩

namespace Source

def canRead : Source → Bool
  | device g => g.canRead
  | _ => false

def length? : Source → Option Nat
  | buffer b => some b.size
  | device _ => none
  | other n _ => n

def rest : Source → Nat
  | buffer b => b.size
  | device g => g.data.size - g.pos
  | other .. => 0

end Source

def broken (failAt : Option Nat) (calls : Nat) : Bool :=
  match failAt with
  | none => false
  | some k => k ≤ calls

def Giver.read (g : Giver) (n : Int) (log : Log) : Giver × Log × Except Failure ByteArray :=
  if broken g.failAt g.calls then ({ g with calls := g.calls + 1 }, log, .error (.device "mock failure"))
  else
    let rest := g.data.size - g.pos
    let size := if n < 0 then rest else min n.toNat rest
    let size := match g.most g.calls with | none => size | some m => min m size
    let bytes := slice g.data g.pos (g.pos + size)
    let log := match g.kind with | .noted tag => log.push (.read tag n size) | .file _ => log
    ({ g with pos := g.pos + size, calls := g.calls + 1 }, log, .ok bytes)

def Giver.close (g : Giver) (log : Log) : Log :=
  match g.kind with
  | .noted tag => log.push (.close tag)
  | .file _ => log

/-! ### Sinks -/

/-- The calls of a sink that fail, each kind counted from zero. -/
structure Outage where
  write : Nat → Bool
  flush : Nat → Bool := fun _ => false

/-- A device that takes bytes. -/
structure Sink where
  kind : Kind := .noted "dst"
  outage : Option Outage := none
  calls : Nat := 0
  flushes : Nat := 0
  canWrite : Bool := true
  canFlush : Bool := true
  canClose : Bool := true
  fileno : Option Int := none
  collected : ByteArray := .empty

namespace Sink

def collectLimit : Nat := 4096

def settle (s : Sink) (name : String) (log : Log) : Sink × Log :=
  if s.collected.size = 0 then (s, log)
  else ({ s with collected := .empty }, log.push (.file name s.collected))

def write (s : Sink) (b : ByteArray) (log : Log) : Sink × Log × Except Failure Unit :=
  if s.outage.any (·.write s.calls) then ({ s with calls := s.calls + 1 }, log, .error (.device "mock failure"))
  else
    let s := { s with calls := s.calls + 1 }
    match s.kind with
    | .noted tag => (s, log.push (.write tag b), .ok ())
    | .file name =>
      if s.collected.size + b.size ≤ collectLimit then
        ({ s with collected := s.collected ++ b }, log, .ok ())
      else
        let (s, log) := s.settle name log
        if collectLimit < b.size then (s, log.push (.file name b), .ok ())
        else ({ s with collected := b }, log, .ok ())

def flush (s : Sink) (log : Log) : Sink × Log × Except Failure Unit :=
  if s.outage.any (·.flush s.flushes) then ({ s with flushes := s.flushes + 1 }, log, .error (.device "mock failure"))
  else
    let s := { s with flushes := s.flushes + 1 }
    match s.kind with
    | .noted tag => (s, log.push (.flush tag), .ok ())
    | .file name =>
      let (s, log) := s.settle name log
      (s, log, .ok ())

def close (s : Sink) (log : Log) : Sink × Log :=
  match s.kind with
  | .noted tag => (s, log.push (.close tag))
  | .file name => s.settle name log

end Sink

/-! ### Actions -/

/-- What an operation works on: the codec, the object, its source and its sink, and the log. -/
structure Desk (κ σ : Type) where
  codec : κ
  object : σ
  source : Source := default
  sink : Sink := {}
  log : Log := #[]

/-- An operation: it changes what is on the desk, also if it fails. -/
abbrev Act (κ σ α : Type) := ExceptT Failure (StateM (Desk κ σ)) α

variable {κ σ : Type}

@[inline] def object : Act κ σ σ := return (← get).object

@[inline] def source : Act κ σ Source := return (← get).source

@[inline] def modifyObject (f : σ → σ) : Act κ σ Unit := modify fun d => { d with object := f d.object }

def askSource (n : Int) : Act κ σ ByteArray := do
  let d ← get
  match d.source with
  | .device g =>
    let (g, log, result) := g.read n d.log
    set { d with source := .device g, log }
    MonadExcept.ofExcept result
  | _ => throw .wrongType

def closeSource : Act κ σ Unit := modify fun d =>
  match d.source with
  | .device g => if g.canClose then { d with log := g.close d.log } else d
  | _ => d

def giveSink (b : ByteArray) : Act κ σ Unit := do
  let d ← get
  let (sink, log, result) := d.sink.write b d.log
  set { d with sink, log }
  MonadExcept.ofExcept result

def flushSink : Act κ σ Unit := do
  let d ← get
  if d.sink.canFlush then
    let (sink, log, result) := d.sink.flush d.log
    set { d with sink, log }
    MonadExcept.ofExcept result

def closeSink : Act κ σ Unit := modify fun d =>
  if d.sink.canClose then
    let (sink, log) := d.sink.close d.log
    { d with sink, log }
  else d

/-! ### Output buffers -/

/-- Objects with an output buffer that stays between calls, and what stands in it. -/
class Buffered (σ : Type) where
  held : σ → ByteArray
  hold : σ → ByteArray → σ
  held_hold (x : σ) (b : ByteArray) : held (hold x b) = b
  hold_hold (x : σ) (b c : ByteArray) : hold (hold x b) c = hold x c
  hold_held (x : σ) : hold x (held x) = x

variable [Buffered σ]

/-- The object relies on an empty output buffer. -/
def assertEmpty : Act κ σ Unit := do
  if (Buffered.held (← object)).size ≠ 0 then throw .assertion

/-- Let the codec write into the output buffer of `room` bytes, behind what stands there, and give out all of it. If the
codec fails, the buffer stays as it is then. -/
def exchange (doing : Doing) (room : Nat) (run : Nat → Act κ σ Outcome) : Act κ σ (Nat × Nat × ByteArray) := do
  let o ← run (room - (Buffered.held (← object)).size)
  modifyObject fun x => Buffered.hold x (Buffered.held x ++ o.out)
  match o.result with
  | .error e => throw (.codec doing e)
  | .ok n =>
    let b := Buffered.held (← object)
    modifyObject (Buffered.hold · .empty)
    return (o.pos, n, b)

end ZstCodec.Pipe
