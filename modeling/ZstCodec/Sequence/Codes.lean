import ZstCodec.Bytes

/-! # Sequences and their number codes

A *sequence* is some literal bytes, then a match, a copy of `matchLength` earlier bytes. How far back it starts is told
by an *offset value*: 1, 2 and 3 name one of the three offsets used last, and a larger value is the offset plus three.
Each number is a *code*, which stands for a range, and *extra bits*, which choose one in the range. -/

namespace ZstCodec

/-- Literals followed by a match. -/
structure Seq where
  litLength : Nat
  offsetValue : Nat
  matchLength : Nat
  deriving DecidableEq, Repr, Inhabited

/-- The three offsets used last, the most recent first. -/
structure Reps where
  first : Nat
  second : Nat
  third : Nat
  deriving DecidableEq, Repr

namespace Reps

def start : Reps := { first := 1, second := 4, third := 8 }

@[inline] def push (r : Reps) (offset : Nat) : Reps :=
  { first := offset, second := r.first, third := r.second }

/-- The offset that a value stands for, and those remembered after it. Behind no literals the values 1, 2, 3 mean the
second, the third and one less than the first, since the first cannot come again. -/
@[inline] def resolve (r : Reps) (litLength offsetValue : Nat) : Nat × Reps :=
  if 3 < offsetValue then
    let offset := offsetValue - 3
    (offset, r.push offset)
  else
    let which := if litLength = 0 then offsetValue + 1 else offsetValue
    if which = 1 then (r.first, r)
    else if which = 2 then (r.second, { r with first := r.second, second := r.first })
    else if which = 3 then (r.third, r.push r.third)
    else (r.first - 1, r.push (r.first - 1))

@[inline] def after (r : Reps) (litLength offsetValue : Nat) : Reps := (r.resolve litLength offsetValue).2

end Reps

namespace Sequence

/-! ### Codes -/

def litLengthBits : Array Nat := #[
  0, 0, 0, 0, 0, 0, 0, 0, 0, 0, 0, 0, 0, 0, 0, 0, 1, 1, 1, 1, 2, 2, 3, 3, 4, 6, 7, 8, 9, 10, 11, 12,
  13, 14, 15, 16]

def matchLengthBits : Array Nat := #[
  0, 0, 0, 0, 0, 0, 0, 0, 0, 0, 0, 0, 0, 0, 0, 0, 0, 0, 0, 0, 0, 0, 0, 0, 0, 0, 0, 0, 0, 0, 0, 0,
  1, 1, 1, 1, 2, 2, 3, 3, 4, 4, 5, 7, 8, 9, 10, 11, 12, 13, 14, 15, 16]

def rangeStarts (first : Nat) (bits : Array Nat) : Array Nat :=
  (bits.foldl (fun (acc : Array Nat × Nat) b => (acc.1.push acc.2, acc.2 + 2 ^ b)) (#[], first)).1

def litLengthBases : Array Nat := rangeStarts 0 litLengthBits

def matchLengthBases : Array Nat := rangeStarts 3 matchLengthBits

def maxLitLengthCode : Nat := 35
def maxMatchLengthCode : Nat := 52
def maxOffsetCode : Nat := 31

/-- Codes of the numbers below `n`, for ranges with the extra bits `bits`. -/
def codesBelow (n : Nat) (bits : Array Nat) : Array Nat :=
  let rec fill (out : Array Nat) (code : Nat) : List Nat → Array Nat
    | [] => out
    | b :: rest =>
      if n ≤ out.size then out else fill (out ++ Array.replicate (min (2 ^ b) (n - out.size)) code) (code + 1) rest
  fill #[] 0 bits.toList

def smallLitLengthCodes : Array Nat := codesBelow 64 litLengthBits
def smallMatchLengthCodes : Array Nat := codesBelow 128 matchLengthBits

def litLengthCode (n : Nat) : Nat :=
  if n < 64 then smallLitLengthCodes.getD n 0 else highBit n + 19

def matchLengthCode (n : Nat) : Nat :=
  let m := n - 3
  if m < 128 then smallMatchLengthCodes.getD m 0 else highBit m + 36

@[inline] def offsetCode (value : Nat) : Nat := highBit value

end Sequence

end ZstCodec
