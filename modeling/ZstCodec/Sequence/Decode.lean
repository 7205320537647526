import ZstCodec.Sequence.Tables

/-! # Reading the sequences section

The section opens with the number of sequences and the sources of the three distributions. The rest is one stream of
bits, read from its end: three initial states, then for each sequence the extra bits of offset, match length and literal
length and the transitions of the states. -/

namespace ZstCodec.Sequence

/-- A resolved match: `literals` bytes, then `length` bytes from `offset` bytes back. -/
structure Copy where
  literals : Nat
  offset : Nat
  length : Nat
  deriving DecidableEq, Repr

/-! ### Header -/

def readTable (k : Kind) (default : Fse.Decoder) (source : Source) (before : Option Fse.Decoder)
    (b : ByteArray) (i : Nat) : Except Fault (Fse.Decoder × Nat) :=
  match source with
  | .predefined => .ok (default, i)
  | .single =>
    if b.size ≤ i ∨ k.maxCode < natAt b i then .error .corrupt
    else .ok (.single (natAt b i), i + 1)
  | .again => match before with
    | none => .error .corrupt
    | some t => .ok (t, i)
  | .written => match Fse.Distribution.read (slice b i b.size) k.maxCode with
    | .error _ => .error .corrupt
    | .ok (d, used) => if k.maxLog < d.log then .error .corrupt else .ok (d.decoder, i + used)

def readCount (b : ByteArray) (i : Nat) : Except Fault (Nat × Nat) :=
  if b.size ≤ i then .error .sourceSizeWrong
  else
    let n := natAt b i
    if n < 128 then .ok (n, i + 1)
    else if n = 255 then
      if b.size < i + 3 then .error .sourceSizeWrong else .ok (le16 b (i + 1) + 0x7F00, i + 3)
    else if b.size < i + 2 then .error .sourceSizeWrong
    else .ok ((n - 128) * 256 + natAt b (i + 1), i + 2)

/-- The number of sequences, their tables if there are any, and the place of the bits. -/
structure Header where
  count : Nat
  tables : Option Decoders
  next : Nat

def readHeader (b : ByteArray) (i : Nat) (before : Option Decoders) : Except Fault Header := do
  let (count, i) ← readCount b i
  if count = 0 then
    if i = b.size then return { count, tables := none, next := i } else throw .corrupt
  if b.size < i + 1 then throw .sourceSizeWrong
  let sources := natAt b i
  if sources % 4 ≠ 0 then throw .corrupt
  let i := i + 1
  let (litLength, i) ← readTable litLengthKind litLengthDecoder (.ofBits (sources / 64))
    (before.map (·.litLength)) b i
  let (offset, i) ← readTable offsetKind offsetDecoder (.ofBits (sources / 16 % 4))
    (before.map (·.offset)) b i
  let (matchLength, i) ← readTable matchLengthKind matchLengthDecoder (.ofBits (sources / 4 % 4))
    (before.map (·.matchLength)) b i
  return { count, tables := some { litLength, offset, matchLength }, next := i }

/-! ### Sequences -/

@[inline] def extra (base n : Nat) (c : BitCursor) : Nat × BitCursor :=
  if n = 0 then (base, c) else (base + c.peekHigh n, c.skip n)

/-- Read `n` sequences in the given states. The states move between two sequences only. -/
def readCopies (t : Decoders) (c : BitCursor) (ll off ml : Nat) (reps : Reps) (out : Array Copy) :
    Nat → Array Copy × BitCursor × Reps
  | 0 => (out, c, reps)
  | n + 1 =>
    let llCode := t.litLength.symbol ll
    let offCode := t.offset.symbol off
    let mlCode := t.matchLength.symbol ml
    let (value, c) := extra (2 ^ offCode) offCode c
    let (length, c) := extra (matchLengthBases.getD mlCode 0) (matchLengthBits.getD mlCode 0) c
    let (literals, c) := extra (litLengthBases.getD llCode 0) (litLengthBits.getD llCode 0) c
    let (offset, reps) := reps.resolve literals value
    let out := out.push { literals, offset, length }
    if n = 0 then (out, c, reps)
    else
      let (ll, c) := t.litLength.next ll c
      let (ml, c) := t.matchLength.next ml c
      let (off, c) := t.offset.next off c
      readCopies t c ll off ml reps out n

/-- Read all `n` sequences of the stream `b`; the cursor tells whether it ended well. -/
def readStream (t : Decoders) (b : ByteArray) (n : Nat) (reps : Reps) :
    Except Fault (Array Copy × BitCursor × Reps) :=
  match BitCursor.start b with
  | .error _ => .error .corrupt
  | .ok c =>
    let (ll, c) := t.litLength.init c
    let (off, c) := t.offset.init c
    let (ml, c) := t.matchLength.init c
    .ok (readCopies t c ll off ml reps (Array.emptyWithCapacity n) n)

end ZstCodec.Sequence
