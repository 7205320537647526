import ZstCodec.Huffman.Weights

/-! # Reading text in a Huffman code

The decoding table is indexed by the bits under the cursor. A stream holds a known number of symbols and has to end
exactly at its start.

* **Singly** read streams look one symbol up at a time.
* **In pairs** read streams take two symbols from one look-up when both fit. On damaged streams this decides how the
  last symbol is taken, when it stands alone: if the look-up holds a pair, the bits of both are passed over, but not
  beyond the start of the stream. -/

namespace ZstCodec.Huffman

/-- How many symbols a look-up gives. -/
inductive Reading where
  | singly
  | inPairs
  deriving DecidableEq, Repr, Inhabited

structure Decoder where
  log : Nat
  symbols : ByteArray
  widths : ByteArray
  reading : Reading

def fillWeight (ws : Array Nat) (w span width : Nat) (acc : ByteArray × ByteArray) :
    ByteArray × ByteArray :=
  (List.range ws.size).foldl
    (fun (acc : ByteArray × ByteArray) s =>
      if ws.getD s 0 = w then
        (pushMany acc.1 s.toUInt8 span, pushMany acc.2 width.toUInt8 span)
      else acc) acc

/-- The decoding table of a code, light symbols first. Look-ups take eleven bits, or twelve. -/
def WeightTable.decoder (t : WeightTable) (reading : Reading) : Decoder :=
  let log := max t.log 11
  let (symbols, widths) := (List.range t.log).foldl
    (fun acc i => fillWeight t.weights (i + 1) (2 ^ (i + (log - t.log))) (t.log - i) acc)
    (.empty, .empty)
  { log, symbols, widths, reading }

namespace Decoder

@[inline] def lookUp (t : Decoder) (v : Nat) : UInt8 × Nat := (byteAt t.symbols v, natAt t.widths v)

def readSingly (t : Decoder) (c : BitCursor) (out : ByteArray) : Nat → ByteArray × BitCursor
  | 0 => (out, c)
  | n + 1 =>
    let (s, w) := t.lookUp (c.peekHigh t.log)
    readSingly t (c.skip w) (out.push s) n

def readLast (t : Decoder) (c : BitCursor) (out : ByteArray) : ByteArray × BitCursor :=
  let v := c.peekHigh t.log
  let (s, w) := t.lookUp v
  let (_, w2) := t.lookUp (v * 2 ^ w % 2 ^ t.log)
  let out := out.push s
  if t.log < w + w2 then (out, c.skip w)
  else if 0 < c.pos then (out, { c with pos := max (c.pos - (w + w2 : Nat)) 0 })
  else (out, c)

def readInPairs (t : Decoder) (c : BitCursor) (out : ByteArray) (n : Nat) :
    Nat → ByteArray × BitCursor
  | 0 => (out, c)
  | fuel + 1 =>
    if n = 0 then (out, c)
    else if n = 1 then t.readLast c out
    else
      let v := c.peekHigh t.log
      let (s, w) := t.lookUp v
      let (s2, w2) := t.lookUp (v * 2 ^ w % 2 ^ t.log)
      if t.log < w + w2 then readInPairs t (c.skip w) (out.push s) (n - 1) fuel
      else readInPairs t (c.skip (w + w2)) ((out.push s).push s2) (n - 2) fuel

def stream (t : Decoder) (b : ByteArray) (n : Nat) (out : ByteArray) : Except Fault ByteArray := do
  let c ← BitCursor.start b
  let (out, c) := match t.reading with
    | .singly => t.readSingly c out n
    | .inPairs => t.readInPairs c out n n
  if c.atEnd then return out else throw .corrupt

def fourStreams (t : Decoder) (b : ByteArray) (n : Nat) : Except Fault ByteArray := do
  if b.size < 10 ∨ n < 6 then throw .corrupt
  let l1 := le16 b 0
  let l2 := le16 b 2
  let l3 := le16 b 4
  if b.size < l1 + l2 + l3 + 6 then throw .corrupt
  let part := (n + 3) / 4
  if n < 3 * part then throw .corrupt
  let i1 := 6 + l1
  let i2 := i1 + l2
  let i3 := i2 + l3
  let out ← t.stream (slice b 6 i1) part .empty
  let out ← t.stream (slice b i1 i2) part out
  let out ← t.stream (slice b i2 i3) part out
  t.stream (slice b i3 b.size) (n - 3 * part) out

end Decoder

/-- Times for reading singly and in pairs, by the compression ratio: to build the table, and for 256 symbols. -/
def readingTimes : Array ((Nat × Nat) × (Nat × Nat)) := #[
  ((0, 0), (1, 1)), ((0, 0), (1, 1)), ((150, 216), (381, 119)), ((170, 205), (514, 112)),
  ((177, 199), (539, 110)), ((197, 194), (644, 107)), ((221, 192), (735, 107)),
  ((256, 189), (881, 106)), ((359, 188), (1167, 109)), ((582, 187), (1570, 114)),
  ((688, 187), (1712, 122)), ((825, 186), (1965, 136)), ((976, 185), (2131, 150)),
  ((1180, 186), (2070, 175)), ((1377, 185), (1731, 202)), ((1412, 185), (1695, 202))]

/-- Read in pairs where that is expected to be faster, for `n` symbols in `size` bytes. -/
def Reading.choose (n size : Nat) : Reading :=
  let q := if n ≤ size then 15 else size * 16 / n
  let ((t0, d0), (t1, d1)) := readingTimes.getD q ((0, 0), (1, 1))
  let single := t0 + d0 * (n / 256)
  let pairs := t1 + d1 * (n / 256)
  if pairs + pairs / 32 < single then .inPairs else .singly

end ZstCodec.Huffman
