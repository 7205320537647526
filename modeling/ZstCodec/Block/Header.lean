import ZstCodec.Bytes
import ZstCodec.Fault

/-! # Block headers

Three bytes tell whether a block is the last, its kind, and the size of what follows; for a repeated byte, of what is
produced. -/

namespace ZstCodec.Block

def maxSize : Nat := 131072

def headerSize : Nat := 3

inductive Kind where
  | stored
  | repeated
  | compressed
  deriving DecidableEq, Repr, Inhabited

structure Header where
  last : Bool
  kind : Kind
  size : Nat
  deriving DecidableEq, Repr, Inhabited

namespace Header

def bodySize (h : Header) : Nat := if h.kind = .repeated then 1 else h.size

def read (b : ByteArray) (i : Nat) : Except Fault Header :=
  if b.size < i + headerSize then .error .sourceSizeWrong
  else
    let v := le24 b i
    let last := v % 2 == 1
    let size := v / 8
    match v / 2 % 4 with
    | 0 => .ok { last, kind := .stored, size }
    | 1 => .ok { last, kind := .repeated, size }
    | 2 => .ok { last, kind := .compressed, size }
    | _ => .error .corrupt

def write (out : ByteArray) (h : Header) : ByteArray :=
  let kind := match h.kind with
    | .stored => 0
    | .repeated => 1
    | .compressed => 2
  putLe out ((if h.last then 1 else 0) + 2 * kind + 8 * h.size) 3

end Header

end ZstCodec.Block
