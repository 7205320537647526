import ZstCodec.Huffman.Weights
import ZstCodec.Sequence.Tables

/-! # Dictionaries

A dictionary is content that both sides know before a frame starts. It is *raw*, or *full*: then a mark, an identifier,
a Huffman code for literals, the distributions of offsets, match lengths and literal lengths, and three offsets to start
with stand in front. -/

namespace ZstCodec.Dictionary

/-- How the bytes of a dictionary are to be taken. -/
inductive ContentType where
  | auto
  | raw
  | full
  deriving DecidableEq, Repr, Inhabited

def ContentType.code : ContentType → Nat
  | auto => 0
  | raw => 1
  | full => 2

def mark : Nat := 0xEC30A437

def isMarked (b : ByteArray) : Bool := 8 ≤ b.size && le32 b 0 == mark

def identifier (b : ByteArray) : Nat := if isMarked b then le32 b 4 else 0

/-- The entropy tables of a full dictionary. -/
structure Entropy where
  literals : Huffman.WeightTable
  offset : Fse.Distribution
  matchLength : Fse.Distribution
  litLength : Fse.Distribution
  reps : Reps
  size : Nat

def readDistribution (k : Sequence.Kind) (b : ByteArray) (i : Nat) : Except Fault (Fse.Distribution × Nat) :=
  match Fse.Distribution.read (slice b i b.size) k.maxCode with
  | .error _ => .error .dictionaryCorrupted
  | .ok (d, used) => if k.maxLog < d.log then .error .dictionaryCorrupted else .ok (d, i + used)

/-- Read the tables of a full dictionary. An offset to start with has to lie within the content. -/
def Entropy.read (b : ByteArray) : Except Fault Entropy := do
  if b.size ≤ 8 then throw .dictionaryCorrupted
  let (literals, used) ← match Huffman.WeightTable.read (slice b 8 b.size) with
    | .error _ => throw .dictionaryCorrupted
    | .ok r => pure r
  let (offset, i) ← readDistribution Sequence.offsetKind b (8 + used)
  let (matchLength, i) ← readDistribution Sequence.matchLengthKind b i
  let (litLength, i) ← readDistribution Sequence.litLengthKind b i
  if b.size < i + 12 then throw .dictionaryCorrupted
  let size := i + 12
  let reps : Reps := { first := le32 b i, second := le32 b (i + 4), third := le32 b (i + 8) }
  let bad (r : Nat) : Bool := r == 0 || b.size - size < r
  if bad reps.first || bad reps.second || bad reps.third then throw .dictionaryCorrupted
  return { literals, offset, matchLength, litLength, reps, size }

end ZstCodec.Dictionary
