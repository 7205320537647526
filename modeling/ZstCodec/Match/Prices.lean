import ZstCodec.Histogram
import ZstCodec.Sequence.Codes

/-! # Prices of sequences

Ways to code a block are compared by their price, in parts of a 256th bit. Prices come from how often each literal and
code has been used; from block to block the numbers are scaled down. In *coarse* prices the weight of a number is the
place of its highest bit; in *fine* ones it also grows between powers of two. -/

namespace ZstCodec.Match

open Sequence

/-- How often each of several symbols occurs, and the weight of all together. -/
structure Tally where
  counts : Array Nat := #[]
  sum : Nat := 0
  base : Nat := 0

def bitPrice : Nat := 256

@[inline] def weight (fine : Bool) (n : Nat) : Nat :=
  let s : UInt64 := n.toUInt64 + 1
  let h : UInt64 := s.log2
  let whole : UInt64 := h <<< 8
  if fine then (whole + ((s <<< 8) >>> h)).toNat else whole.toNat

namespace Tally

def ofCounts (counts : Array Nat) : Tally := { counts, sum := counts.foldl (· + ·) 0 }

@[inline] def settle (t : Tally) (fine : Bool) : Tally := { t with base := weight fine t.sum }

@[inline] def add (t : Tally) (s n : Nat) : Tally :=
  let ⟨counts, sum, base⟩ := t
  ⟨counts.modify s (· + n), sum + n, base⟩

def scale (t : Tally) (log : Nat) : Tally :=
  let sum := t.counts.foldl (· + ·) 0
  let factor := sum / 2 ^ log
  if factor ≤ 1 then { t with sum }
  else
    let by_ := 2 ^ highBit factor
    ofCounts (t.counts.map fun n => 1 + n / by_)

/-- Price of a symbol in parts of a 256th bit, by how much rarer it is than all together. -/
@[inline] def price (t : Tally) (fine : Bool) (s : Nat) : Int :=
  (t.base : Int) - weight fine (t.counts.getD s 0)

/-- The tally of a code whose symbols take `bits s` bits, up to the symbol `max`. -/
def ofBits (bits : Nat → Nat) (max log : Nat) : Tally :=
  ofCounts <| (Array.range (max + 1)).map fun s => if bits s = 0 then 1 else 2 ^ (log - bits s)

end Tally

/-- The cheapest way found to a place: the last sequence, and the literals behind it. -/
structure Node where
  price : Int := 0
  length : Nat := 0
  code : Nat := 0
  literals : Nat := 0
  reps : Reps := .start

/-- Tallies of what has been coded. -/
structure Prices where
  literal : Tally := {}
  litLength : Tally := {}
  matchLength : Tally := {}
  offset : Tally := {}
  started : Bool := false
  promised : Bool := false
  /-- Nodes by place. Those behind the last place are left from earlier stretches, and may be looked at. -/
  nodes : Array Node := #[]

namespace Prices

def literalStep : Nat := 2

def stretchSize : Nat := 4096

def firstLitLengths : Array Nat := #[4, 2] ++ Array.replicate 34 1

def firstOffsets : Array Nat := #[6, 2, 1, 1, 2, 3, 4, 4, 4, 3, 2] ++ Array.replicate 21 1

def settle (p : Prices) (fine : Bool) : Prices :=
  { p with
    literal := p.literal.settle fine
    litLength := p.litLength.settle fine
    matchLength := p.matchLength.settle fine
    offset := p.offset.settle fine }

/-- The tallies at the start of the block from `i` to `j`. Before the first, literals are counted ahead. -/
def begin_ (p : Prices) (fine : Bool) (b : ByteArray) (i j : Nat) : Prices :=
  let p :=
    if p.started then
      { p with
        literal := p.literal.scale 12
        litLength := p.litLength.scale 11
        matchLength := p.matchLength.scale 11
        offset := p.offset.scale 11 }
    else if p.promised then p
    else
      let counts := Histogram.countBytes b i (Array.replicate 256 0) (j - i)
      { p with
        literal := .ofCounts (counts.map fun n => if n = 0 then 0 else 1 + n / 256)
        litLength := .ofCounts firstLitLengths
        matchLength := .ofCounts (Array.replicate (maxMatchLengthCode + 1) 1)
        offset := .ofCounts firstOffsets }
  let nodes := if p.nodes.isEmpty then Array.replicate (stretchSize + 3) {} else p.nodes
  { p with started := true, nodes }.settle fine

@[inline] def literalPrice (p : Prices) (fine : Bool) (byte : Nat) : Int :=
  let base := p.literal.base
  (base : Int) - min (weight fine (p.literal.counts.getD byte 0)) (base - bitPrice)

def litLengthPrice (p : Prices) (fine : Bool) (n : Nat) : Int :=
  -- a block of nothing but literals takes one bit more than one byte less does
  let whole := n = 131072
  let code := litLengthCode (if whole then n - 1 else n)
  let price : Int := (litLengthBits.getD code 0 * bitPrice : Nat) + p.litLength.price fine code
  if whole then price + bitPrice else price

/-- The price of an offset. Far ones are dearer in coarse prices, since they take longer to read. -/
def offsetPrice (p : Prices) (fine : Bool) (offset : Nat) : Int :=
  let code := offsetCode offset
  let far := if ! fine && 20 ≤ code then (code - 19) * 2 * bitPrice else 0
  (code * bitPrice + far + bitPrice / 5 : Nat) + p.offset.price fine code

def matchLengthPrice (p : Prices) (fine : Bool) (length : Nat) : Int :=
  let code := matchLengthCode length
  (matchLengthBits.getD code 0 * bitPrice : Nat) + p.matchLength.price fine code

def addLiterals (t : Tally) (b : ByteArray) (i : Nat) : Nat → Tally
  | 0 => t
  | n + 1 => addLiterals (t.add (natAt b i) literalStep) b (i + 1) n

def addSequence (p : Prices) (b : ByteArray) (i : Nat) (s : Seq) : Prices :=
  let ⟨literal, litLength, matchLength, offset, started, promised, nodes⟩ := p
  { literal := addLiterals literal b i s.litLength
    litLength := litLength.add (litLengthCode s.litLength) 1
    matchLength := matchLength.add (matchLengthCode s.matchLength) 1
    offset := offset.add (offsetCode s.offsetValue) 1
    started, promised, nodes }

end Prices

end ZstCodec.Match
