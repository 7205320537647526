import ZstCodec.Bytes

/-! # Numbers of double precision

A number of double precision is a fraction with a numerator of at most 53 bits over a power of two. Arithmetic is exact,
and rounded where a result would not fit, to the nearest number and of two to the even one. `fixed` writes a number with
a given number of places, rounded from its exact value. -/

namespace ZstCodec.Number

def nearestInt (q : Rat) : Int :=
  let n := q.floor
  let rest := q - n
  if rest < 1 / 2 then n
  else if 1 / 2 < rest then n + 1
  else if n % 2 = 0 then n else n + 1

def pow2 (e : Int) : Rat := if 0 ≤ e then ((2 ^ e.toNat : Nat) : Rat) else 1 / ((2 ^ (-e).toNat : Nat) : Rat)

/-- The exponent of the last of 53 bits, never below that of the smallest number. -/
def lastPlace (q : Rat) : Int :=
  let n := q.num.natAbs
  let guess : Int := (n.log2 : Int) - (q.den.log2 : Int)
  -- the guess is the place of the highest bit, or the one above it
  let high := if mkRat n q.den < pow2 guess then guess - 1 else guess
  max (high - 52) (-1074)

def double (q : Rat) : Rat :=
  if q = 0 then 0
  else
    let e := lastPlace q
    (nearestInt (q / pow2 e) : Rat) * pow2 e

def ofDecimal (digits : Int) (places : Nat) : Rat := double (mkRat digits (10 ^ places))

def add (x y : Rat) : Rat := double (x + y)

def sub (x y : Rat) : Rat := double (x - y)

def mul (x y : Rat) : Rat := double (x * y)

def div (x y : Rat) : Rat := double (x / y)

def padded (n width : Nat) : String :=
  let s := toString n
  String.ofList (List.replicate (width - s.length) '0') ++ s

def fixed (places : Nat) (q : Rat) : String :=
  let scaled := (nearestInt ((if q < 0 then -q else q) * ((10 ^ places : Nat) : Rat))).toNat
  let body := toString (scaled / 10 ^ places)
  let body := if places = 0 then body else body ++ "." ++ padded (scaled % 10 ^ places) places
  if q < 0 then "-" ++ body else body

/-- A number of double precision as a decimal fraction: digits and places. -/
def toDecimal (q : Rat) : Int × Nat :=
  let places := q.den.log2
  (q.num * 5 ^ places, places)

end ZstCodec.Number
