import ZstCodec.Compress.Stream
import ZstCodec.Pipe.Device

/-! # Feeding a compressor

Stream objects feed the compressor until all input is taken, and drain it until no output waits. Each piece of output,
at most as large as the room, is handed on at once. -/

namespace ZstCodec.Compress

open Pipe

variable {σ : Type}

def recommendedRoom : Nat := bound Block.maxSize + 7

def recommendedInput : Nat := Block.maxSize

namespace Context

def begin (x : Context) (pledged : Option Nat) : Context := { x.reset with pledged }

def backlog (x : Context) : Nat :=
  match x.running with
  | none => 0
  | some r => r.pending.size + (r.out.size - r.given)

/-- More calls than are needed to take `n` bytes and give out all there is. -/
def effort (x : Context) (n : Nat) : Nat := 4 * (x.backlog + n) + 4096

end Context

/-- What streams drive: it takes input and gives output call by call. -/
class Engine (κ : Type) where
  run : κ → ByteArray → Nat → Nat → Directive → κ × Outcome

instance : Engine Context := ⟨Context.run⟩

def call {κ : Type} [Engine κ] (input : ByteArray) (pos free : Nat) (directive : Directive) : Act κ σ Outcome :=
  modifyGet fun desk =>
    let ⟨codec, object, source, sink, log⟩ := desk
    let (codec, o) := Engine.run codec input pos free directive
    (o, ⟨codec, object, source, sink, log⟩)

def beginFrame (pledged : Option Nat) : Act Context σ Unit :=
  modify fun desk => { desk with codec := desk.codec.begin pledged }

def feedFrom (input : ByteArray) (room : Nat) (emit : ByteArray → Act Context σ Unit) (pos : Nat) :
    Nat → Act Context σ Unit
  | 0 => return
  | fuel + 1 => do
    if input.size ≤ pos then return
    let o ← call input pos room .more
    match o.result with
    | .error e => throw (.codec .compressingStream e)
    | .ok _ =>
      if o.out.size ≠ 0 then emit o.out
      feedFrom input room emit o.pos fuel

def feed (input : ByteArray) (room : Nat) (emit : ByteArray → Act Context σ Unit) : Act Context σ Unit := do
  feedFrom input room emit 0 ((← get).codec.effort input.size)

def drainFrom (directive : Directive) (doing : Doing) (room : Nat) (emit : ByteArray → Act Context σ Unit) :
    Nat → Act Context σ Unit
  | 0 => return
  | fuel + 1 => do
    let o ← call .empty 0 room directive
    match o.result with
    | .error e => throw (.codec doing e)
    | .ok waiting =>
      if o.out.size ≠ 0 then emit o.out
      if waiting ≠ 0 then drainFrom directive doing room emit fuel

def drain (directive : Directive) (doing : Doing) (room : Nat) (emit : ByteArray → Act Context σ Unit) :
    Act Context σ Unit := do
  drainFrom directive doing room emit ((← get).codec.effort 0)

end ZstCodec.Compress
