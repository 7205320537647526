import ZstCodec.Huffman.Code
import ZstCodec.Fse.Table

/-! # The written form of a Huffman code

A code travels as the *weights* of its symbols: zero for a symbol without a code, else one more than the largest width
less its width. The last weight is determined by the others and left out. The list is coded with finite states or packed
two to a byte. -/

namespace ZstCodec.Huffman

def widthLimit : Nat := 12

def Code.weights (c : Code) : Array Nat :=
  (c.widths.extract 0 c.maxSymbol).map fun w => if w = 0 then 0 else c.log + 1 - w

/-- Weights coded with finite states; empty if it does not pay. -/
def codeWeights (ws : Array Nat) : Option ByteArray :=
  if ws.size ≤ 1 then some .empty
  else
    let h := Histogram.ofSymbols ws
    if h.largest = ws.size ∨ h.largest = 1 then some .empty
    else do
      let log := Fse.bestLog 6 ws.size h.maxSymbol 2
      let d ← Fse.normalize log h.counts ws.size false
      let head ← d.write
      match Fse.encodeAll d.encoder ws with
      | some body => some (head ++ body)
      | none => some .empty

def packWeights (ws : Array Nat) (i : Nat) (out : ByteArray) : Nat → ByteArray
  | 0 => out
  | n + 1 =>
    packWeights ws (i + 2) (out.push (ws.getD i 0 * 16 + ws.getD (i + 1) 0).toUInt8) n

def Code.write (c : Code) : Option ByteArray := do
  let ws := c.weights
  let n := ws.size
  let coded ← codeWeights ws
  if 1 < coded.size ∧ coded.size < n / 2 then
    some ((ByteArray.empty.push coded.size.toUInt8) ++ coded)
  else if 128 < n then none
  else some (packWeights ws 0 (ByteArray.empty.push (128 + (n - 1)).toUInt8) ((n + 1) / 2))

/-! ### Reading -/

def unpackWeights (b : ByteArray) (n : Nat) : Array Nat :=
  ((List.range n).map fun i =>
    let v := natAt b (1 + i / 2)
    if i % 2 = 0 then v / 16 else v % 16).toArray

/-- Weights of all symbols, the last one included, and the largest width. -/
structure WeightTable where
  weights : Array Nat
  log : Nat
  deriving Repr, Inhabited

def readListed (b : ByteArray) : Except Fault (Array Nat × Nat) := do
  if b.size = 0 then throw .sourceSizeWrong
  let n := natAt b 0
  if 128 ≤ n then
    let count := n - 127
    let bytes := (count + 1) / 2
    if b.size < bytes + 1 then throw .sourceSizeWrong
    return (unpackWeights b count, bytes + 1)
  else
    if b.size < n + 1 then throw .sourceSizeWrong
    let ws ← Fse.decompress (slice b 1 (n + 1)) 255 6
    return (ws, n + 1)

/-- Complete the weights by the last one: the codes have to fill the space of the largest width. -/
def complete (ws : Array Nat) : Except Fault WeightTable := do
  if ws.any (widthLimit < ·) then throw .corrupt
  let total := ws.foldl (fun n w => n + 2 ^ w / 2) 0
  if total = 0 then throw .corrupt
  let log := highBit total + 1
  if widthLimit < log then throw .corrupt
  let rest := 2 ^ log - total
  if 2 ^ highBit rest ≠ rest then throw .corrupt
  let all := ws.push (highBit rest + 1)
  let ones := all.foldl (fun n w => if w = 1 then n + 1 else n) 0
  if ones < 2 ∨ ones % 2 = 1 then throw .corrupt
  return { weights := all, log }

def WeightTable.read (b : ByteArray) : Except Fault (WeightTable × Nat) := do
  let (ws, used) ← readListed b
  return (← complete ws, used)

def WeightTable.code (t : WeightTable) : Code :=
  Code.ofWidths t.log (t.weights.map fun w => if w = 0 then 0 else t.log + 1 - w)

end ZstCodec.Huffman
