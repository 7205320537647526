import ZstCodec.Block.Encode

/-! # Splitting blocks

A block with many sequences may be shorter as several blocks with codes of their own. As long as the estimates of both
halves together are less than that of the whole, a stretch of sequences is cut in the middle. The parts are given by the
places between the sequences where it is cut. -/

namespace ZstCodec.Block

open Sequence

/-! ### Estimates -/

/-- Literals up to this number are not coded, unless every one of them has a known code. -/
def mostUncoded : Nat := 63

/-- Bytes for the literals `i … i + n - 1` of `b`; `none` if their code cannot be written. -/
def estimateLiterals (b : ByteArray) (i n : Nat) (searchLimit : Bool) (old : Literals.Code) : Option Nat :=
  let lead := 3 + (if 1024 ≤ n then 1 else 0) + (if 16384 ≤ n then 1 else 0) + (if 256 ≤ n then 6 else 0)
  if n ≤ (if old.known = .complete then 6 else mostUncoded) then some n
  else
    let h := Histogram.ofBytes b i n
    if h.largest = n then some 1
    else if h.largest ≤ n / 128 + 4 then some n
    else
      let known := if old.known = .unchecked ∧ ! old.code.covers h then .nothing else old.known
      let limit := if searchLimit then Huffman.bestLimit h 11 else Fse.bestLog 11 n h.maxSymbol 1
      let c := Huffman.build h limit
      match c.write with
      | none => none
      | some head =>
        let fresh := head.size + c.estimate h
        let again := old.code.estimate h
        if known ≠ .nothing ∧ again < n ∧ (again ≤ fresh ∨ n ≤ head.size + 12) then some (again + lead)
        else if n ≤ fresh then some n
        else some (fresh + lead)

/-- Bytes for the codes of one kind, with their extra bits, and for the table they get. -/
def estimateCodes (k : Sequence.Kind) (codes : Array Nat) (extra : Nat → Nat) (old : Sequence.Table) (s : Strategy) :
    Option Nat := do
  let chosen ← chooseTable k codes old s
  let h := Histogram.ofSymbols codes
  let bits := match chosen.source with
    | .predefined => some (costUnder k.default h)
    | .single => some 0
    | .written | .again => costWith chosen.table.encoder h
  let size := match bits with
    | none => codes.size * 10
    | some bits => (codes.foldl (fun n c => n + extra c) bits) / 8
  return size + chosen.head.size

def estimateSequences (c : Sequence.Codes) (old : Sequence.Tables) (s : Strategy) : Option Nat := do
  let n := c.offset.size
  let lead := 2 + (if 128 ≤ n then 1 else 0) + (if 0x7F00 ≤ n then 1 else 0)
  let ll ← estimateCodes litLengthKind c.litLength (litLengthBits.getD · 0) old.litLength s
  let off ← estimateCodes offsetKind c.offset id old.offset s
  let ml ← estimateCodes matchLengthKind c.matchLength (matchLengthBits.getD · 0) old.matchLength s
  return lead + ll + off + ml

/-! ### Cutting -/

/-- A block that may be split: literals, where those of each sequence start, and codes. -/
structure Whole where
  literals : ByteArray
  starts : Array Nat
  codes : Sequence.Codes

def Whole.of (literals : ByteArray) (seqs : Array Seq) : Whole :=
  { literals
    starts := (seqs.foldl (fun (acc : Array Nat × Nat) s => (acc.1.push acc.2, acc.2 + s.litLength)) (#[], 0)).1
    codes := codesOf seqs }

/-- Where the literals of sequence `i` start; those behind the last match belong to the last one. -/
def Whole.startOf (w : Whole) (i : Nat) : Nat := w.starts.getD i w.literals.size

def Whole.estimate (w : Whole) (p : Policy) (old : Coding) (i j : Nat) : Option Nat := do
  let from_ := w.startOf i
  let lits ← estimateLiterals w.literals from_ (w.startOf j - from_) (8 ≤ p.strategy.rank) old.literals
  let c : Sequence.Codes :=
    { litLength := w.codes.litLength.extract i j
      offset := w.codes.offset.extract i j
      matchLength := w.codes.matchLength.extract i j }
  let seqs ← estimateSequences c old.sequences p.strategy
  return lits + seqs + 3

def leastSplit : Nat := 300

def mostCuts : Nat := 196

def cutHalves (estimate : Nat → Nat → Option Nat) (i j : Nat) (cuts : Array Nat) : Nat → Array Nat
  | 0 => cuts
  | depth + 1 =>
    if j - i < leastSplit || mostCuts ≤ cuts.size then cuts
    else
      let mid := (i + j) / 2
      match estimate i j, estimate i mid, estimate mid j with
      | some whole, some first, some second =>
        if first + second < whole then
          cutHalves estimate mid j ((cutHalves estimate i mid cuts depth).push mid) depth
        else cuts
      | _, _, _ => cuts

def cuts (p : Policy) (old : Coding) (literals : ByteArray) (seqs : Array Seq) : Array Nat :=
  if seqs.size < leastSplit then #[]
  else
    let w := Whole.of literals seqs
    cutHalves (w.estimate p old) 0 seqs.size #[] (highBit seqs.size + 1)

/-! ### Parts -/

/-- Offsets for a reader who remembers `told` instead of `meant`: where these differ, they are told in full. -/
def retell (told meant : Reps) (out : Array Seq) : List Seq → Array Seq × Reps × Reps
  | [] => (out, told, meant)
  | s :: rest =>
    let (offset, meantAfter) := meant.resolve s.litLength s.offsetValue
    let s' : Seq :=
      if s.offsetValue ≤ 3 ∧ (told.resolve s.litLength s.offsetValue).1 ≠ offset then
        { s with offsetValue := offset + 3 }
      else s
    retell (told.after s.litLength s'.offsetValue) meantAfter (out.push s') rest

def spanOf (seqs : Array Seq) : Nat := seqs.foldl (fun n s => n + s.litLength + s.matchLength) 0

end ZstCodec.Block
