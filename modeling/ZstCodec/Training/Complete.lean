import ZstCodec.Compress.Prepared
import ZstCodec.Training.Coverage

/-! # Making content a full dictionary

A full dictionary has entropy tables in front of its content. They come from compressing samples with the content as a
raw dictionary. All counts start at one, so that every code can be written. -/

namespace ZstCodec.Training

/-- How often literals and codes are used. -/
structure Usage where
  literals : Array Nat
  offset : Array Nat
  matchLength : Array Nat
  litLength : Array Nat

namespace Usage

def once (offsetMax : Nat) : Usage :=
  { literals := Array.replicate 256 1
    offset := Array.replicate (offsetMax + 1) 1
    matchLength := Array.replicate (Sequence.maxMatchLengthCode + 1) 1
    litLength := Array.replicate (Sequence.maxLitLengthCode + 1) 1 }

def countAll (counts codes : Array Nat) : Array Nat := codes.foldl (fun a c => a.modify c (· + 1)) counts

def add (u : Usage) (literals : ByteArray) (seqs : Array Seq) : Usage :=
  let c := Sequence.codesOf seqs
  { literals := Histogram.countBytes literals 0 u.literals literals.size
    offset := countAll u.offset c.offset
    matchLength := countAll u.matchLength c.matchLength
    litLength := countAll u.litLength c.litLength }

/-- Count what a block with the first `most` bytes of a sample uses, unless it is not compressed. -/
def countSample (d : Compress.Dictionary) (most : Nat) (u : Usage) (sample : ByteArray) : Usage :=
  let piece := slice sample 0 most
  let w := d.start 0 none
  if piece.size < Compress.Writer.leastSearched ∨ w.plan.blockSize < piece.size then u
  else
    let w := w.extend Compress.directPlace piece
    let stop := w.finder.content.size
    let (w, _, cut) := w.parseBlock (stop - piece.size) stop
    let literals := cut.literals w.finder.content
    match Block.writeShorter w.plan.policy piece.size literals cut.seqs w.coding with
    | none => u
    | some _ => u.add literals cut.seqs

end Usage

def literalLimit : Nat := 11

def nearlyFlat : Array Nat :=
  ((Array.replicate 256 2).setIfInBounds 0 4 |>.setIfInBounds 253 1).setIfInBounds 254 1

def literalCode (counts : Array Nat) : Huffman.Code :=
  let code := Huffman.build (.ofCounts counts) literalLimit
  if code.log = 8 then Huffman.build (.ofCounts nearlyFlat) literalLimit else code

def writeDistribution (k : Sequence.Kind) (counts : Array Nat) : Except Fault ByteArray :=
  match (Fse.normalize k.maxLog counts (counts.foldl (· + ·) 0) true).bind Fse.Distribution.write with
  | some b => .ok b
  | none => .error .generic

def offsetCodeLimit : Nat := 30

def headLimit : Nat := 256

def tables (s : Samples) (n : Nat) (level : Int) (content : ByteArray) : Except Fault ByteArray := do
  let offsetMax := highBit (content.size + Block.maxSize)
  if offsetCodeLimit < offsetMax then throw .dictionaryCreationFailed
  let t := Tuning.ofLevel level (s.startOf n / max n 1) content.size
  let d ← Compress.Dictionary.prepare (.ofTuning t) 0 content .raw
  let most := min Block.maxSize (2 ^ t.windowLog)
  let u := (List.range n).foldl (fun u i => Usage.countSample d most u (s.get i)) (.once offsetMax)
  let some literals := (literalCode u.literals).write | throw .generic
  let offset ← writeDistribution Sequence.offsetKind u.offset
  let matchLength ← writeDistribution Sequence.matchLengthKind u.matchLength
  let litLength ← writeDistribution Sequence.litLengthKind u.litLength
  let reps := Reps.start
  let out := putLe (putLe (putLe (literals ++ offset ++ matchLength ++ litLength) reps.first 4) reps.second 4) reps.third 4
  if headLimit < 8 + out.size then throw .outputTooSmall
  return out

def leastCapacity : Nat := 256

/-- The least content: the longest of the offsets to start with has to lie within it. -/
def leastContent : Nat := 8

def identifierOf (content : ByteArray) : Nat := (XxHash64.hash content).toNat % (2 ^ 31 - 32768) + 32768

/-- A full dictionary of `capacity` bytes. The identifier zero is one made from the content. -/
def complete (s : Samples) (n : Nat) (level : Int) (id capacity : Nat) (content : ByteArray) : Except Fault ByteArray := do
  if capacity < content.size ∨ capacity < leastCapacity then throw .outputTooSmall
  let head := putLe (putLe .empty Dictionary.mark 4) (if id = 0 then identifierOf content else id) 4
  let head := head ++ (← tables s n level content)
  let content := slice content 0 (min content.size (capacity - head.size))
  if content.size < leastContent ∧ capacity < head.size + leastContent then throw .outputTooSmall
  return head ++ replicate (leastContent - content.size) 0 ++ content

end ZstCodec.Training
