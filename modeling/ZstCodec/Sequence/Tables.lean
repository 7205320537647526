import ZstCodec.Sequence.Codes
import ZstCodec.Fse.Table

/-! # Tables of the sequence codes

The three number codes of a sequence are written in finite-state codes, whose distributions are predefined, a single
code repeated, written into the section, or those used before. -/

namespace ZstCodec.Sequence

/-- Where a section finds the distribution of a code. -/
inductive Source where
  | predefined
  | single
  | written
  | again
  deriving DecidableEq, Repr

namespace Source

def bits : Source → Nat
  | predefined => 0
  | single => 1
  | written => 2
  | again => 3

def ofBits (n : Nat) : Source :=
  if n = 0 then predefined else if n = 1 then single else if n = 2 then written else again

theorem ofBits_bits (s : Source) : ofBits s.bits = s := by cases s <;> rfl

end Source

/-! ### Predefined distributions -/

def litLengthDefault : Fse.Distribution :=
  { log := 6
    counts := #[4, 3, 2, 2, 2, 2, 2, 2, 2, 2, 2, 2, 2, 1, 1, 1, 2, 2, 2, 2, 2, 2, 2, 2,
      2, 3, 2, 1, 1, 1, 1, 1, -1, -1, -1, -1] }

def matchLengthDefault : Fse.Distribution :=
  { log := 6
    counts := #[1, 4, 3, 2, 2, 2, 2, 2, 2, 1, 1, 1, 1, 1, 1, 1, 1, 1, 1, 1, 1, 1, 1, 1,
      1, 1, 1, 1, 1, 1, 1, 1, 1, 1, 1, 1, 1, 1, 1, 1, 1, 1, 1, 1, 1, 1, -1, -1, -1, -1, -1, -1, -1] }

def offsetDefault : Fse.Distribution :=
  { log := 5
    counts := #[1, 1, 1, 1, 1, 1, 2, 2, 2, 1, 1, 1, 1, 1, 1, 1, 1, 1, 1, 1, 1, 1, 1, 1,
      -1, -1, -1, -1, -1] }

/-- What is fixed for one of the three codes. -/
structure Kind where
  maxCode : Nat
  maxLog : Nat
  default : Fse.Distribution

def litLengthKind : Kind := { maxCode := maxLitLengthCode, maxLog := 9, default := litLengthDefault }
def matchLengthKind : Kind := { maxCode := maxMatchLengthCode, maxLog := 9, default := matchLengthDefault }
def offsetKind : Kind := { maxCode := maxOffsetCode, maxLog := 8, default := offsetDefault }

/-- Decoding tables of the three codes. -/
structure Decoders where
  litLength : Fse.Decoder
  offset : Fse.Decoder
  matchLength : Fse.Decoder

def litLengthDecoder : Fse.Decoder := litLengthDefault.decoder
def matchLengthDecoder : Fse.Decoder := matchLengthDefault.decoder
def offsetDecoder : Fse.Decoder := offsetDefault.decoder

end ZstCodec.Sequence
