import ZstCodec.Decompress.Stream
import ZstCodec.Pipe.Device

/-! # Decompression objects

A decompression object takes input in pieces and gives back content. At the end of a frame it is finished and keeps what
follows as unused, unless it reads across frames. -/

namespace ZstCodec.Decompress

open Pipe

variable {σ : Type}

def recommendedInput : Nat := Block.maxSize + Block.headerSize

def recommendedRoom : Nat := Block.maxSize

def effort (n : Nat) : Nat := (n + 64) * Block.maxSize

def call (input : ByteArray) (pos free : Nat) : Act Stream σ Outcome :=
  modifyGet fun desk =>
    let ⟨codec, object, source, sink, log⟩ := desk
    let (codec, o) := codec.run input pos free
    (o, ⟨codec, object, source, sink, log⟩)

/-- Decode the input and hand on each piece of content. The answer is how far the input has been read. -/
def decodeFrom (input : ByteArray) (doing : Doing) (room : Nat) (emit : ByteArray → Act Stream σ Unit) (pos : Nat) :
    Nat → Act Stream σ Nat
  | 0 => return pos
  | fuel + 1 => do
    if input.size ≤ pos then return pos
    let o ← call input pos room
    match o.result with
    | .error e => throw (.codec doing e)
    | .ok _ =>
      if o.out.size ≠ 0 then emit o.out
      decodeFrom input doing room emit o.pos fuel

structure Object where
  room : Except Failure Nat
  acrossFrames : Bool
  finished : Bool := false
  unused : ByteArray := .empty

namespace Object

abbrev Action := Act Stream Object

def decompressFrom (input : ByteArray) (room pos : Nat) (out : ByteArray) : Nat → Action ByteArray
  | 0 => throw (.codec .decompressingObject .generic)
  | fuel + 1 => do
    let k ← object
    let o ← call input pos room
    match o.result with
    | .error e => throw (.codec .decompressingObject e)
    | .ok hint =>
      let out := out ++ o.out
      if hint = 0 then
        if k.acrossFrames then
          if o.pos = input.size then return out else decompressFrom input room o.pos out fuel
        else
          modifyObject ({ · with finished := true, unused := slice input o.pos input.size })
          return out
      else if o.pos = input.size && o.out.size < room then return out
      else decompressFrom input room o.pos out fuel

def decompress (data : Except Failure ByteArray) : Action ByteArray := do
  if (← object).finished then throw .objectReused
  let data ← MonadExcept.ofExcept data
  if data.size = 0 then return .empty
  let room ← MonadExcept.ofExcept (← object).room
  decompressFrom data room 0 .empty (effort data.size)

end Object

end ZstCodec.Decompress
