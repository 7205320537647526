import ZstCodec.Block.Header
import ZstCodec.Literals.Encode
import ZstCodec.Sequence.Encode

/-! # Coding blocks

A block is written as a literals section and a sequences section. It leaves to the next block the codes that its reader
knows by then. -/

namespace ZstCodec.Block

/-- The codes a reader knows. -/
structure Coding where
  literals : Literals.Code := .nothing
  sequences : Sequence.Tables := {}

/-- After the first block no longer every offset can be told by the table of a dictionary. -/
def Coding.later (c : Coding) : Coding :=
  if c.sequences.offset.known = .complete then
    { c with sequences := { c.sequences with offset := { c.sequences.offset with known := .unchecked } } }
  else c

/-- A stretch of input cut into sequences, and the literals behind the last match. -/
structure Cut where
  start : Nat
  seqs : Array Seq
  rest : Nat

/-- The literals before each match of `seqs` from `i` on, and the place behind the last. -/
def gather (content : ByteArray) (seqs : List Seq) (i : Nat) (out : ByteArray) : ByteArray × Nat :=
  match seqs with
  | [] => (out, i)
  | s :: seqs =>
    gather content seqs (i + s.litLength + s.matchLength)
      (content.copySlice i out out.size s.litLength)

def Cut.literals (c : Cut) (content : ByteArray) : ByteArray :=
  let (out, i) := gather content c.seqs.toList c.start .empty
  content.copySlice i out out.size c.rest

/-- What is fixed for all blocks of a frame. -/
structure Policy where
  strategy : Strategy
  storeLiterals : Bool

def suspicious (literals seqs : Nat) : Bool := seqs = 0 || 20 ≤ literals / seqs

/-- Write the two sections of a block: the bytes, and the codes known afterwards. -/
def writeBody (p : Policy) (literals : ByteArray) (seqs : Array Seq) (old : Coding) :
    Option (ByteArray × Coding) := do
  let (lits, code) := Literals.write literals
    { strategy := p.strategy, storeOnly := p.storeLiterals
      suspicious := suspicious literals.size seqs.size } old.literals
  let (part, tables) ← Sequence.write seqs old.sequences p.strategy
  return (lits ++ part, { literals := code, sequences := tables })

def writeShorter (p : Policy) (size : Nat) (literals : ByteArray) (seqs : Array Seq) (old : Coding) :
    Option (ByteArray × Coding) := do
  let (body, coding) ← writeBody p literals seqs old
  if body.size + leastGain size p.strategy < size then return (body, coding) else none

end ZstCodec.Block
