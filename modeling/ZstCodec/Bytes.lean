/-! # Byte strings

Little-endian words of a byte string, and how long two places of it agree.

* **Total reads.** `byteAt b i` is zero past the end; callers that must refuse a short input check the size first.
* **Words.** `le16`, `le24`, `le32`, `le64` read at a byte position; `putLe` writes the low bytes of a number.
* **Agreement.** `agreement b i j limit` counts equal bytes at `i` and `j`, the first below `limit`. -/

namespace ZstCodec

-- Powers are those of the core library, also where the powers of a monoid are at hand.
attribute [scoped instance (high), default_instance 20000] instPowNat

@[inline] def byteAt (b : ByteArray) (i : Nat) : UInt8 :=
  if h : i < b.size then b[i] else 0

@[inline] def natAt (b : ByteArray) (i : Nat) : Nat := (byteAt b i).toNat

/-! ### Little-endian words -/

def le16 (b : ByteArray) (i : Nat) : Nat := natAt b i + 256 * natAt b (i + 1)

def le24 (b : ByteArray) (i : Nat) : Nat := le16 b i + 65536 * natAt b (i + 2)

def word32 (b : ByteArray) (i : Nat) : UInt32 :=
  if h : i + 4 ≤ b.size then
    b[i].toUInt32 ||| (b[i + 1].toUInt32 <<< 8) ||| (b[i + 2].toUInt32 <<< 16)
      ||| (b[i + 3].toUInt32 <<< 24)
  else
    (byteAt b i).toUInt32 ||| ((byteAt b (i + 1)).toUInt32 <<< 8)
      ||| ((byteAt b (i + 2)).toUInt32 <<< 16) ||| ((byteAt b (i + 3)).toUInt32 <<< 24)

def word64 (b : ByteArray) (i : Nat) : UInt64 :=
  if h : i + 8 ≤ b.size then
    b[i].toUInt64 ||| (b[i + 1].toUInt64 <<< 8) ||| (b[i + 2].toUInt64 <<< 16)
      ||| (b[i + 3].toUInt64 <<< 24) ||| (b[i + 4].toUInt64 <<< 32)
      ||| (b[i + 5].toUInt64 <<< 40) ||| (b[i + 6].toUInt64 <<< 48)
      ||| (b[i + 7].toUInt64 <<< 56)
  else
    (word32 b i).toUInt64 ||| ((word32 b (i + 4)).toUInt64 <<< 32)

def le32 (b : ByteArray) (i : Nat) : Nat := (word32 b i).toNat

def le64 (b : ByteArray) (i : Nat) : Nat := (word64 b i).toNat

def putLe (b : ByteArray) (v : Nat) : Nat → ByteArray
  | 0 => b
  | n + 1 => putLe (b.push (v % 256).toUInt8) (v / 256) n

/-! ### Slices -/

def slice (b : ByteArray) (i j : Nat) : ByteArray := b.extract i j

/-- The place that a bound stands for: a negative one counts from the end, and none lies outside. -/
def boundIn (n : Nat) (i : Int) : Nat := if i < 0 then (i + n).toNat else min i.toNat n

/-- The bytes between two bounds, of which negative ones count from the end. -/
def slicePart (b : ByteArray) (i j : Int) : ByteArray := slice b (boundIn b.size i) (boundIn b.size j)

def pushMany (out : ByteArray) (v : UInt8) : Nat → ByteArray
  | 0 => out
  | n + 1 => pushMany (out.push v) v n

def replicate (n : Nat) (v : UInt8) : ByteArray := pushMany (ByteArray.emptyWithCapacity n) v n

/-- Two byte strings hold the same bytes from `i` and `j` on, for `n` bytes. -/
def sameBytes (a : ByteArray) (i : Nat) (b : ByteArray) (j : Nat) : Nat → Bool
  | 0 => true
  | n + 1 => byteAt a i == byteAt b j && sameBytes a (i + 1) b (j + 1) n

def bytesEq (a b : ByteArray) : Bool := a.size == b.size && sameBytes a 0 b 0 a.size

/-! ### Agreement of two places -/

@[inline] def same4 (b : ByteArray) (i j : Nat) : Bool := word32 b i == word32 b j

@[inline] def same8 (b : ByteArray) (i j : Nat) : Bool := word64 b i == word64 b j

def agreementFrom (b : ByteArray) (i j n : Nat) : Nat → Nat
  | 0 => n
  | fuel + 1 =>
    if byteAt b (i + n) == byteAt b (j + n) then agreementFrom b i j (n + 1) fuel else n

def agreementWords (b : ByteArray) (i j n fuel : Nat) : Nat → Nat
  | 0 => agreementFrom b i j n fuel
  | words + 1 =>
    if same8 b (i + n) (j + n) then agreementWords b i j (n + 8) (fuel - 8) words
    else agreementFrom b i j n fuel

/-- How many bytes at `i` and `j` agree while the first place stays below `limit`. -/
def agreement (b : ByteArray) (i j limit : Nat) : Nat :=
  agreementWords b i j 0 (limit - i) ((limit - i) / 8)

def agreementBack (b : ByteArray) (i j n : Nat) : Nat → Nat
  | 0 => n
  | fuel + 1 =>
    if byteAt b (i - n - 1) == byteAt b (j - n - 1) then agreementBack b i j (n + 1) fuel else n

/-- How many bytes before `i` and `j` agree, back to `anchor` and `low` at most. -/
def backward (b : ByteArray) (i anchor j low : Nat) : Nat :=
  agreementBack b i j 0 (min (i - anchor) (j - low))

/-! ### Logarithms -/

@[inline] def highBit (n : Nat) : Nat := Nat.log2 n

end ZstCodec
