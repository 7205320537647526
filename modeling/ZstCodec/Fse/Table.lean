import ZstCodec.Fse.Distribution
import ZstCodec.Bits.Cursor

/-! # Coding with finite states

A distribution is *spread* over its states with a fixed stride. From the spread follow two tables: the decoder's, with
symbol, bits to read and base of the next state; and the encoder's, with the states of each symbol and how many bits a
transition writes. -/

namespace ZstCodec.Fse

/-! ### Spreading -/

/-- The next state of the spread, passing over the states at the top that rare symbols own. -/
def nextFree (size step high pos : Nat) : Nat → Nat
  | 0 => pos
  | fuel + 1 =>
    let pos := (pos + step) % size
    if high < pos then nextFree size step high pos fuel else pos

def placeMany (size step high s : Nat) (table : Array Nat) (pos : Nat) : Nat → Array Nat × Nat
  | 0 => (table, pos)
  | n + 1 =>
    placeMany size step high s (table.setIfInBounds pos s) (nextFree size step high pos size) n

def placeRare (counts : Array Int) (table : Array Nat) : Array Nat × Nat :=
  (List.range counts.size).foldl
    (fun (acc : Array Nat × Nat) s =>
      if counts.getD s 0 = -1 then (acc.1.setIfInBounds acc.2 s, acc.2 - 1) else acc)
    (table, table.size - 1)

def Distribution.spread (d : Distribution) : Array Nat :=
  let size := d.size
  let step := size / 2 + size / 8 + 3
  let (table, high) := placeRare d.counts (Array.replicate size 0)
  ((List.range d.counts.size).foldl
    (fun (acc : Array Nat × Nat) s =>
      placeMany size step high s acc.1 acc.2 (d.counts.getD s 0).toNat)
    (table, 0)).1

/-! ### Decoding -/

/-- Per state: the symbol, the number of bits to read and what to add to them. -/
structure Decoder where
  log : Nat
  symbols : Array Nat
  bits : Array Nat
  bases : Array Nat
  deriving Repr

/-- States of each symbol are numbered from its share upwards; the number tells bits and base. -/
def Distribution.decoder (d : Distribution) : Decoder :=
  let size := d.size
  let symbols := d.spread
  let share := d.counts.map fun c => if c = -1 then 1 else c.toNat
  let (_, bits, bases) := symbols.foldl
    (fun (acc : Array Nat × Array Nat × Array Nat) s =>
      let (next, bits, bases) := acc
      let n := next.getD s 0
      let nb := d.log - highBit n
      (next.setIfInBounds s (n + 1), bits.push nb, bases.push (n * 2 ^ nb - size)))
    (share, #[], #[])
  { log := d.log, symbols, bits, bases }

def Decoder.single (s : Nat) : Decoder :=
  { log := 0, symbols := #[s], bits := #[0], bases := #[0] }

namespace Decoder

@[inline] def symbol (t : Decoder) (state : Nat) : Nat := t.symbols.getD state 0

@[inline] def next (t : Decoder) (state : Nat) (c : BitCursor) : Nat × BitCursor :=
  let n := t.bits.getD state 0
  (t.bases.getD state 0 + c.peek n, c.skip n)

def init (t : Decoder) (c : BitCursor) : Nat × BitCursor := (c.peek t.log, c.skip t.log)

end Decoder

/-- Decode symbols with two alternating states until the stream is overrun. -/
def decodeAlternating (t : Decoder) (limit : Nat) (c : BitCursor) (one two : Nat)
    (out : Array Nat) : Nat → Except Fault (Array Nat)
  | 0 => .error .outputTooSmall
  | fuel + 1 =>
    if limit < out.size + 2 then .error .outputTooSmall
    else
      let out := out.push (t.symbol one)
      let (state, c) := t.next one c
      if c.overrun then .ok (out.push (t.symbol two))
      else decodeAlternating t limit c two state out fuel

/-- Decode a stream of at most `limit` symbols, with its distribution in front of it. -/
def decompress (b : ByteArray) (limit logLimit : Nat) : Except Fault (Array Nat) := do
  let (d, used) ← Distribution.read b 255
  if logLimit < d.log then throw .tableLogTooLarge
  -- tables for more symbols than this do not fit the room set aside for them
  let m := d.maxSymbol
  let room := (1 + d.size) + 1 + (2 * (m + 1) + d.size + 8 + 3) / 4 + 128 + 1
  if 219 < room then throw .tableLogTooLarge
  let c ← BitCursor.start (slice b used b.size)
  let t := d.decoder
  let (one, c) := t.init c
  let (two, c) := t.init c
  decodeAlternating t limit c one two #[] (limit + 1)

/-! ### Encoding -/

/-- `delta` tells how many bits a transition writes, `offset` where a symbol's states start in `states`. -/
structure Encoder where
  log : Nat
  states : Array Nat
  delta : Array Nat
  offset : Array Int
  deriving Repr, Inhabited

def cumulate (counts : Array Int) : Array Nat :=
  (counts.foldl (fun (acc : Array Nat × Nat) c => (acc.1.push acc.2, acc.2 + c.natAbs)) (#[], 0)).1

def Distribution.encoder (d : Distribution) : Encoder :=
  let size := d.size
  let starts := cumulate d.counts
  let (states, _, _) := d.spread.foldl
    (fun (acc : Array Nat × Array Nat × Nat) s =>
      let (states, next, u) := acc
      let at_ := next.getD s 0
      (states.setIfInBounds at_ (size + u), next.setIfInBounds s (at_ + 1), u + 1))
    (Array.replicate size 0, starts, 0)
  let (delta, offset, _) := d.counts.foldl
    (fun (acc : Array Nat × Array Int × Nat) c =>
      let (delta, offset, total) := acc
      if c = 0 then (delta.push ((d.log + 1) * 65536 - size), offset.push 0, total)
      else if c = -1 ∨ c = 1 then
        (delta.push (d.log * 65536 - size), offset.push ((total : Int) - 1), total + 1)
      else
        let n := c.toNat
        let out := d.log - highBit (n - 1)
        (delta.push (out * 65536 - n * 2 ^ out), offset.push ((total : Int) - n), total + n))
    (#[], #[], 0)
  { log := d.log, states, delta, offset }

def Encoder.single (s : Nat) : Encoder :=
  { log := 0, states := #[0], delta := Array.replicate (s + 1) 0
    offset := Array.replicate (s + 1) 0 }

namespace Encoder

def maxSymbol (t : Encoder) : Nat := t.delta.size - 1

def init (t : Encoder) (s : Nat) : Nat :=
  let delta := t.delta.getD s 0
  let out := (delta + 32768) / 65536
  let v := out * 65536 - delta
  t.states.getD (((v / 2 ^ out : Nat) : Int) + t.offset.getD s 0).toNat 0

def encode (t : Encoder) (w : BitWriter) (state s : Nat) : BitWriter × Nat :=
  let out := (state + t.delta.getD s 0) / 65536
  (w.addNat state out,
    t.states.getD (((state / 2 ^ out : Nat) : Int) + t.offset.getD s 0).toNat 0)

def finish (t : Encoder) (w : BitWriter) (state : Nat) : BitWriter := w.addNat state t.log

def mostBits (t : Encoder) (s : Nat) : Nat := (t.delta.getD s 0 + 65535) / 65536

def cost (t : Encoder) (s : Nat) : Nat :=
  let delta := t.delta.getD s 0
  let least := delta / 65536
  let short := (least + 1) * 65536 - (delta + 2 ^ t.log)
  (least + 1) * 256 - short * 256 / 2 ^ t.log

end Encoder

/-- Code the symbols before place `i`, last one first, with two alternating states. -/
def encodeAlternating (t : Encoder) (symbols : Array Nat) (w : BitWriter) (one two : Nat) :
    Nat → BitWriter × Nat × Nat
  | 0 => (w, one, two)
  | i + 1 =>
    let (w, one) := t.encode w one (symbols.getD i 0)
    encodeAlternating t symbols w two one i

/-- Code a list of more than two symbols so that `decodeAlternating` reads it back. -/
def encodeAll (t : Encoder) (symbols : Array Nat) : Option ByteArray :=
  let n := symbols.size
  if n ≤ 2 then none
  else
    -- the two last symbols are carried by the initial states
    let last := t.init (symbols.getD (n - 1) 0)
    let before := t.init (symbols.getD (n - 2) 0)
    let (w, odd, even) := encodeAlternating t symbols {} last before (n - 2)
    some (t.finish (t.finish w odd) even).close

end ZstCodec.Fse
