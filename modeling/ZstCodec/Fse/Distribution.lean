import ZstCodec.Bits.Writer
import ZstCodec.Fault

/-! # Distributions of a finite-state code

A finite-state code gives each symbol a share of `2 ^ log` states. The *distribution* is a count per symbol, where `-1`
stands for a symbol too rare for a whole share, which still owns one state. `normalize` scales a histogram to a
distribution; `Distribution.write` and `Distribution.read` are its compact form. -/

namespace ZstCodec.Fse

structure Distribution where
  log : Nat
  counts : Array Int
  deriving DecidableEq, Repr

namespace Distribution

def maxSymbol (d : Distribution) : Nat := d.counts.size - 1

def count (d : Distribution) (s : Nat) : Int := d.counts.getD s 0

def size (d : Distribution) : Nat := 2 ^ d.log

end Distribution

def minLog : Nat := 5
def maxLog : Nat := 12

/-! ### Choosing a size -/

/-- The fewest bits that can tell `total` occurrences, or all symbols, apart. -/
def leastLog (total maxSymbol : Nat) : Nat :=
  min (highBit total + 1) (highBit maxSymbol + 2)

/-- A good number of state bits for `total` occurrences, at most `limit`; `margin` keeps the table small. -/
def bestLog (limit total maxSymbol margin : Nat) : Nat :=
  let most : Int := (highBit (total - 1) : Int) - margin
  let log : Int := if most < 0 then limit else min (limit : Int) most
  let log := max log (leastLog total maxSymbol)
  (min (max log minLog) maxLog).toNat

/-! ### Scaling a histogram -/

/-- From which rest on a share below eight is rounded up, in parts of 2²⁰. -/
def roundUpAbove : Array Nat := #[0, 473195, 504333, 520860, 550000, 700000, 750000, 830000]

/-- Rare symbols get the low share, middling ones a single state. Given are the shares (`-2` for symbols to be served),
the states given away, and the occurrences left. -/
def firstShares (count : Array Nat) (lowShare : Int) (lowLimit oneLimit : Nat) (total : Nat) :
    Array Int × Nat × Nat :=
  count.foldl
    (fun (acc : Array Int × Nat × Nat) c =>
      let (norm, given, left) := acc
      if c = 0 then (norm.push 0, given, left)
      else if c ≤ lowLimit then (norm.push lowShare, given + 1, left - c)
      else if c ≤ oneLimit then (norm.push 1, given + 1, left - c)
      else (norm.push (-2), given, left))
    (#[], 0, total)

def secondShares (count : Array Nat) (norm : Array Int) (oneLimit given left : Nat) :
    Array Int × Nat × Nat :=
  (List.range norm.size).foldl
    (fun (acc : Array Int × Nat × Nat) s =>
      let (norm, given, left) := acc
      let c := count.getD s 0
      if norm.getD s 0 = -2 ∧ c ≤ oneLimit then (norm.setIfInBounds s 1, given + 1, left - c)
      else (norm, given, left))
    (norm, given, left)

def largestIndex (count : Array Nat) : Nat :=
  ((List.range count.size).foldl
    (fun (acc : Nat × Nat) s =>
      let c := count.getD s 0
      if acc.2 < c then (s, c) else acc) (0, 0)).1

/-- Hand the remaining states round to the symbols that have a whole share. -/
def dealOut (norm : Array Int) (s : Nat) : Nat → Nat → Array Int
  | 0, _ => norm
  | _ + 1, 0 => norm
  | fuel + 1, left =>
    let next := (s + 1) % norm.size
    if 0 < norm.getD s 0 then
      dealOut (norm.setIfInBounds s (norm.getD s 0 + 1)) next fuel (left - 1)
    else dealOut norm next fuel left

/-- The fallback where rounding gave away too many states: rare symbols are served first. -/
def normalizeRareFirst (log : Nat) (count : Array Nat) (total : Nat) (lowShare : Int) :
    Option (Array Int) :=
  let lowLimit := total / 2 ^ log
  let oneLimit := total * 3 / 2 ^ (log + 1)
  let (norm, given, left) := firstShares count lowShare lowLimit oneLimit total
  let states := 2 ^ log
  if states = given then some norm
  else
    let (norm, given, left) :=
      if oneLimit < left / (states - given) then
        secondShares count norm (left * 3 / ((states - given) * 2)) given left
      else (norm, given, left)
    let rest := states - given
    if given = count.size then
      let s := largestIndex count
      some (norm.setIfInBounds s (norm.getD s 0 + rest))
    else if left = 0 then some (dealOut norm 0 (states * count.size + states) rest)
    else
      let stepLog := 62 - log
      let mid := 2 ^ (stepLog - 1) - 1
      let step := (2 ^ stepLog * rest + mid) / left
      let (norm, _, ok) := (List.range norm.size).foldl
        (fun (acc : Array Int × Nat × Bool) s =>
          let (norm, at_, ok) := acc
          if norm.getD s 0 = -2 then
            let stop := at_ + count.getD s 0 * step
            let weight := stop / 2 ^ stepLog - at_ / 2 ^ stepLog
            (norm.setIfInBounds s weight, stop, ok && 1 ≤ weight)
          else acc)
        (norm, mid, true)
      if ok then some norm else none

/-- One symbol of the plain rounding: the share of a count `c` out of `total`. -/
def plainShare (log total c : Nat) : Nat :=
  let scale := 62 - log
  let step := 2 ^ 62 / total
  let share := c * step / 2 ^ scale
  if share < 8 then
    let above := c * step - share * 2 ^ scale
    if 2 ^ (scale - 20) * roundUpAbove.getD share 0 < above then share + 1 else share
  else share

/-- Scale a histogram to `2 ^ log` states. `rare` allows shares of `-1`. A single symbol has no distribution. -/
def normalize (log : Nat) (count : Array Nat) (total : Nat) (rare : Bool) : Option Distribution :=
  if log < minLog ∨ maxLog < log ∨ log < leastLog total (count.size - 1) then none
  else
    let lowShare : Int := if rare then -1 else 1
    let lowLimit := total / 2 ^ log
    let (norm, left, largest, _) := count.foldl
      (fun (acc : Array Int × Int × Nat × Nat) c =>
        let (norm, left, largest, largestShare) := acc
        if c = 0 then (norm.push 0, left, largest, largestShare)
        else if c ≤ lowLimit then (norm.push lowShare, left - 1, largest, largestShare)
        else
          let share := plainShare log total c
          let s := norm.size
          let (largest, largestShare) :=
            if largestShare < share then (s, share) else (largest, largestShare)
          (norm.push share, left - share, largest, largestShare))
      (#[], (2 ^ log : Nat), 0, 0)
    if (norm.getD largest 0).fdiv 2 ≤ -left then
      (normalizeRareFirst log count total lowShare).map fun counts => { log, counts }
    else
      some { log, counts := norm.setIfInBounds largest (norm.getD largest 0 + left) }

/-! ### The written form

A distribution is written as its log less five in four bits, then for each symbol the count plus one, in as many bits as
the states left require (small values save one bit). After a zero, a two-bit field tells how many more zeros follow, and
three means "three, and another field". -/

def writeZeros (w : BitWriter) (n : Nat) : Nat → BitWriter
  | 0 => w
  | fuel + 1 => if 3 ≤ n then writeZeros (w.add 3 2) (n - 3) fuel else w.addNat n 2

def zerosFrom (counts : Array Int) (s : Nat) : Nat → Nat
  | 0 => 0
  | fuel + 1 => if counts.getD s 1 = 0 then zerosFrom counts (s + 1) fuel + 1 else 0

def lowerThreshold (left threshold bits : Nat) : Nat → Nat × Nat
  | 0 => (threshold, bits)
  | fuel + 1 =>
    if left < threshold then lowerThreshold left (threshold / 2) (bits - 1) fuel
    else (threshold, bits)

/-- Write the counts from symbol `s` on; `left` is one more than the states left. -/
def writeCounts (w : BitWriter) (counts : Array Int) (s left threshold bits : Nat)
    (afterZero : Bool) : Nat → Option (BitWriter × Nat)
  | 0 => some (w, left)
  | fuel + 1 =>
    if counts.size ≤ s ∨ left ≤ 1 then some (w, left)
    else
      let zeros := if afterZero then zerosFrom counts s (counts.size - s) else 0
      let at_ := s + zeros
      if afterZero && counts.size ≤ at_ then some (w, left)
      else
        let w := if afterZero then writeZeros w zeros (zeros + 1) else w
        let c := counts.getD at_ 0
        let small := 2 * threshold - 1 - left
        let rest : Int := (left : Int) - c.natAbs
        if rest < 1 then none
        else
          let v := (c + 1).toNat
          let v := if threshold ≤ v then v + small else v
          let w := w.addNat v (if v < small then bits - 1 else bits)
          let left := rest.toNat
          let (threshold, bits) := lowerThreshold left threshold bits bits
          writeCounts w counts (at_ + 1) left threshold bits (v == 1) fuel

def Distribution.write (d : Distribution) : Option ByteArray :=
  let w := BitWriter.addNat {} (d.log - minLog) 4
  match writeCounts w d.counts 0 (2 ^ d.log + 1) (2 ^ d.log) (d.log + 1) false d.counts.size with
  | some (w, left) => if left = 1 then some w.flush else none
  | none => none

/-! ### Reading it back -/

/-- A byte position and bits beyond it. The former stays four bytes before the end. -/
structure Place where
  byte : Int
  bit : Int

def Place.word (p : Place) (b : ByteArray) : Nat :=
  ((word32 b p.byte.toNat) >>> p.bit.toNat.toUInt32).toNat

def Place.settle (p : Place) (size : Int) : Place :=
  if p.byte ≤ size - 7 ∨ p.byte + p.bit.fdiv 8 ≤ size - 4 then
    { byte := p.byte + p.bit.fdiv 8, bit := p.bit.emod 8 }
  else { byte := size - 4, bit := (p.bit - 8 * (size - 4 - p.byte)).emod 32 }

def onePairs (v : Nat) : Nat → Nat
  | 0 => 0
  | fuel + 1 => if v % 4 = 3 then onePairs (v / 4) fuel + 1 else 0

/-- Skip a run of zero counts: the symbol reached and the place after the run. -/
def skipZeros (b : ByteArray) (size : Int) (p : Place) (s : Nat) : Nat → Nat × Place
  | 0 => (s, p)
  | fuel + 1 =>
    let v := p.word b
    let pairs := onePairs v 15
    if 12 ≤ pairs then
      let p : Place :=
        if p.byte ≤ size - 7 then { p with byte := p.byte + 3 }
        else { byte := size - 4, bit := (p.bit - 8 * (size - 7 - p.byte)).emod 32 }
      skipZeros b size p (s + 36) fuel
    else
      let v := v / 4 ^ pairs
      (s + 3 * pairs + v % 4, { p with bit := p.bit + 2 * pairs + 2 })

def readCounts (b : ByteArray) (size : Int) (limit : Nat) (p : Place) (counts : Array Int)
    (left threshold bits : Nat) (afterZero : Bool) :
    Nat → Array Int × Nat × Nat × Place
  | 0 => (counts, counts.size, left, p)
  | fuel + 1 =>
    let (s, p) := if afterZero then skipZeros b size p counts.size b.size else (counts.size, p)
    if afterZero && limit ≤ s then (counts, s, left, p)
    else
      let counts := counts ++ Array.replicate (s - counts.size) (0 : Int)
      let p := if afterZero then p.settle size else p
      let v := p.word b
      let small := 2 * threshold - 1 - left
      let low := v % threshold
      let (c, used) : Nat × Nat :=
        if low < small then (low, bits - 1)
        else
          let whole := v % (2 * threshold)
          (if threshold ≤ whole then whole - small else whole, bits)
      let p := { p with bit := p.bit + used }
      let c : Int := (c : Int) - 1
      let counts := counts.push c
      let rest : Int := (left : Int) - c.natAbs
      let left := rest.toNat
      if rest < threshold ∧ rest ≤ 1 then (counts, counts.size, if rest = 1 then 1 else 0, p)
      else
        let (threshold, bits) :=
          if left < threshold then (2 ^ highBit left, highBit left + 1) else (threshold, bits)
        if limit ≤ counts.size then (counts, counts.size, left, p)
        else readCounts b size limit (p.settle size) counts left threshold bits (c == 0) fuel

/-- Read a distribution for symbols up to `maxSymbol` from a header of at least eight bytes. -/
def readPadded (b : ByteArray) (maxSymbol : Nat) : Except Fault (Distribution × Nat) :=
  let log := (natAt b 0) % 16 + minLog
  if 15 < log then .error .tableLogTooLarge
  else
    let (counts, s, left, p) :=
      readCounts b b.size (maxSymbol + 1) { byte := 0, bit := 4 } #[] (2 ^ log + 1) (2 ^ log)
        (log + 1) false (maxSymbol + 2)
    if left ≠ 1 then .error .corrupt
    else if maxSymbol + 1 < s then .error .maxSymbolTooSmall
    else if 32 < p.bit then .error .corrupt
    else .ok ({ log, counts }, (p.byte + (p.bit + 7).fdiv 8).toNat)

/-- Read a distribution for symbols up to `maxSymbol`: the distribution and the bytes it took. -/
def Distribution.read (b : ByteArray) (maxSymbol : Nat) : Except Fault (Distribution × Nat) :=
  if b.size < 8 then do
    let (d, n) ← readPadded (b ++ replicate (8 - b.size) 0) maxSymbol
    if b.size < n then .error .corrupt else .ok (d, n)
  else readPadded b maxSymbol

end ZstCodec.Fse
