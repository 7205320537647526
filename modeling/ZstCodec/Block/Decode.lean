import ZstCodec.Block.Header
import ZstCodec.Literals.Decode
import ZstCodec.Sequence.Execute

/-! # Decoding blocks

A decoder of blocks carries the history, the tables that a block may use again, and the offsets used last. -/

namespace ZstCodec.Block

/-- What one block leaves to the next. -/
structure Memory where
  literals : Option Huffman.Decoder := none
  sequences : Option Sequence.Decoders := none
  reps : Reps := .start

/-- When the end of the stream of sequences is tested: after all of them, or before the last eight run. -/
inductive EndTest where
  | after
  | ahead
  deriving DecidableEq, Repr

def readAhead : Nat := 8

/-- The bounds of the sequences of a block: `low` is the oldest byte in reach. -/
def sequenceBounds (room : Literals.Room) (waiting : Literals.Waiting) (low size : Nat) : Sequence.Bounds :=
  match waiting with
  | .apart => { low, limit := size + room.capacity }
  | .behind => { low, limit := size + room.blockMax + Literals.slack }
  | .ahead count place => { low, limit := size + room.capacity, ahead := some (count, size + place) }

def runAll (m : Sequence.Bounds) (test : EndTest) (literals : ByteArray) (copies : Array Sequence.Copy)
    (ended : Bool) (history : ByteArray) : Except Fault ByteArray := do
  let n := copies.size
  let early := match test with
    | .after => n
    | .ahead => n - readAhead
  let (history, used) ← Sequence.runCopies m literals copies 0 history 0 early
  if test = .ahead ∧ !ended then throw .corrupt
  let (history, used) ← Sequence.runCopies m literals copies early history used (n - early)
  if !ended then throw .corrupt
  Sequence.runRest m literals history used

/-- Decode a compressed block: the grown history, and what the next block may use. -/
def decode (b : ByteArray) (room : Literals.Room) (test : EndTest) (memory : Memory) (low : Nat)
    (history : ByteArray) : Except Fault (ByteArray × Memory) := do
  if room.blockMax < b.size then throw .sourceSizeWrong
  let lits ← Literals.read b room memory.literals
  let head ← Sequence.readHeader b lits.next memory.sequences
  if room.capacity = 0 ∧ 0 < head.count then throw .outputTooSmall
  let m := sequenceBounds room lits.waiting low history.size
  match head.tables with
  | none =>
    let history ← Sequence.runRest m lits.bytes history 0
    return (history, { memory with literals := lits.table })
  | some tables =>
    let (copies, c, reps) ← Sequence.readStream tables (slice b head.next b.size) head.count memory.reps
    let history ← runAll m test lits.bytes copies c.atEnd history
    return (history, { literals := lits.table, sequences := some tables, reps })

end ZstCodec.Block
