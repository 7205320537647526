import ZstCodec.Sequence.Tables
import ZstCodec.Params.Tuning
import ZstCodec.Histogram
import ZstCodec.Known

/-! # Writing the sequences section

For each number code a source is chosen by its expected cost, or by rules of thumb. Then the sequences are written last
one first. -/

namespace ZstCodec.Sequence

/-! ### Costs -/

/-- The cost of an event that happens `n` times out of 256, in parts of a 256th bit. -/
def costOf256 : Array Nat := #[
  0, 2048, 1792, 1642, 1536, 1453, 1386, 1329, 1280, 1236, 1197, 1162, 1130, 1100, 1073, 1047, 1024,
  1001, 980, 960, 941, 923, 906, 889, 874, 859, 844, 830, 817, 804, 791, 779, 768, 756, 745, 734, 724,
  714, 704, 694, 685, 676, 667, 658, 650, 642, 633, 626, 618, 610, 603, 595, 588, 581, 574, 567, 561,
  554, 548, 542, 535, 529, 523, 517, 512, 506, 500, 495, 489, 484, 478, 473, 468, 463, 458, 453, 448,
  443, 438, 434, 429, 424, 420, 415, 411, 407, 402, 398, 394, 390, 386, 382, 377, 373, 370, 366, 362,
  358, 354, 350, 347, 343, 339, 336, 332, 329, 325, 322, 318, 315, 311, 308, 305, 302, 298, 295, 292,
  289, 286, 282, 279, 276, 273, 270, 267, 264, 261, 258, 256, 253, 250, 247, 244, 241, 239, 236, 233,
  230, 228, 225, 222, 220, 217, 215, 212, 209, 207, 204, 202, 199, 197, 194, 192, 190, 187, 185, 182,
  180, 178, 175, 173, 171, 168, 166, 164, 162, 159, 157, 155, 153, 151, 149, 146, 144, 142, 140, 138,
  136, 134, 132, 130, 128, 126, 123, 121, 119, 117, 115, 114, 112, 110, 108, 106, 104, 102, 100, 98,
  96, 94, 93, 91, 89, 87, 85, 83, 82, 80, 78, 76, 74, 73, 71, 69, 67, 66, 64, 62, 61, 59, 57, 55, 54,
  52, 50, 49, 47, 46, 44, 42, 41, 39, 37, 36, 34, 33, 31, 30, 28, 26, 25, 23, 22, 20, 19, 17, 16, 14,
  13, 11, 10, 8, 7, 5, 4, 2, 1]

def entropyCost (h : Histogram) (total : Nat) : Nat :=
  h.counts.foldl
    (fun cost c =>
      let share := 256 * c / total
      cost + c * costOf256.getD (if c ≠ 0 ∧ share = 0 then 1 else share) 0) 0 / 256

def costUnder (d : Fse.Distribution) (h : Histogram) : Nat :=
  ((List.range h.counts.size).foldl
    (fun cost s =>
      let share := if d.count s = -1 then 1 else (d.count s).toNat
      cost + h.count s * costOf256.getD (share * 2 ^ (8 - d.log)) 0) 0) / 256

def costWith (t : Fse.Encoder) (h : Histogram) : Option Nat :=
  if t.maxSymbol < h.maxSymbol then none
  else
    ((List.range h.counts.size).foldl
      (fun (acc : Option Nat) s =>
        match acc with
        | none => none
        | some cost =>
          if h.count s = 0 then some cost
          else if (t.log + 1) * 256 ≤ t.cost s then none
          else some (cost + h.count s * t.cost s)) (some 0)).map (· / 256)

def allowsRare (n : Nat) : Bool := 2048 ≤ n

def costWritten (h : Histogram) (n maxLog : Nat) : Option Nat := do
  let log := Fse.bestLog maxLog n h.maxSymbol 2
  let d ← Fse.normalize log h.counts n (allowsRare n)
  let head ← d.write
  return 8 * head.size + entropyCost h n

/-! ### Choosing a source -/

/-- The table a reader knows for one of the codes. -/
structure Table where
  encoder : Fse.Encoder
  known : Known

def Table.nothing : Table := { encoder := default, known := .nothing }

/-- The three tables. -/
structure Tables where
  litLength : Table := .nothing
  offset : Table := .nothing
  matchLength : Table := .nothing

/-- `a` costs no more than `b`; what is impossible costs more than anything. -/
def noDearer : Option Nat → Option Nat → Bool
  | _, none => true
  | none, some _ => false
  | some a, some b => a ≤ b

/-- Choose the source of the distribution of `n` codes, and what is known of the table then. -/
def choose (k : Kind) (h : Histogram) (n : Nat) (old : Table) (defaultAllowed : Bool) (s : Strategy) :
    Source × Known :=
  if h.largest = n then
    if defaultAllowed ∧ n ≤ 2 then (.predefined, .nothing) else (.single, .nothing)
  else if s.rank < 4 then
    if defaultAllowed && old.known = .complete && n < 1000 then (.again, old.known)
    else if defaultAllowed &&
        (n < 2 ^ k.default.log * (10 - s.rank) / 8 || h.largest < n / 2 ^ (k.default.log - 1)) then
      (.predefined, .nothing)
    else (.written, .unchecked)
  else
    let basic := if defaultAllowed then some (costUnder k.default h) else none
    let again := if old.known ≠ .nothing then costWith old.encoder h else none
    let written := costWritten h n k.maxLog
    if basic.isSome && noDearer basic again && noDearer basic written then (.predefined, .nothing)
    else if again.isSome && noDearer again written then (.again, old.known)
    else (.written, .unchecked)

/-- A chosen table: its source, its written form and itself. -/
structure Chosen where
  source : Source
  head : ByteArray
  table : Table

/-- The table of the codes, last of which is `last`, from the chosen source. -/
def build (k : Kind) (h : Histogram) (n last : Nat) (old : Table) (source : Source) (known : Known) :
    Option Chosen :=
  match source with
  | .single =>
    some ⟨.single, ByteArray.empty.push last.toUInt8, { encoder := .single h.maxSymbol, known }⟩
  | .again => some ⟨.again, .empty, { old with known }⟩
  | .predefined => some ⟨.predefined, .empty, { encoder := k.default.encoder, known }⟩
  | .written => do
    let log := Fse.bestLog k.maxLog n h.maxSymbol 2
    -- the last code is carried by the initial state and need not be counted
    let (counts, total) :=
      if 1 < h.count last then (h.counts.modify last (· - 1), n - 1) else (h.counts, n)
    let d ← Fse.normalize log counts total (allowsRare total)
    let head ← d.write
    return ⟨.written, head, { encoder := d.encoder, known }⟩

def chooseTable (k : Kind) (codes : Array Nat) (old : Table) (s : Strategy) : Option Chosen :=
  let h := Histogram.ofSymbols codes
  let n := codes.size
  let defaultAllowed := h.maxSymbol ≤ k.default.maxSymbol
  let (source, known) := choose k h n old defaultAllowed s
  build k h n (codes.getD (n - 1) 0) old source known

/-! ### The section -/

def writeCount (n : Nat) : ByteArray :=
  if n < 128 then ByteArray.empty.push n.toUInt8
  else if n < 0x7F00 then (ByteArray.empty.push (n / 256 + 128).toUInt8).push (n % 256).toUInt8
  else putLe (ByteArray.empty.push 255) (n - 0x7F00) 2

@[inline] def writeExtra (w : BitWriter) (s : Seq) (ll off ml : Nat) : BitWriter :=
  let w := w.addNat s.litLength (litLengthBits.getD ll 0)
  let w := w.addNat (s.matchLength - 3) (matchLengthBits.getD ml 0)
  w.addNat s.offsetValue off

/-- The codes of all sequences. -/
structure Codes where
  litLength : Array Nat
  offset : Array Nat
  matchLength : Array Nat

def codesOf (seqs : Array Seq) : Codes :=
  { litLength := seqs.map fun s => litLengthCode s.litLength
    offset := seqs.map fun s => offsetCode s.offsetValue
    matchLength := seqs.map fun s => matchLengthCode s.matchLength }

/-- Write the sequences before place `n`, last one first, from the given states. -/
def writeStates (t : Tables) (seqs : Array Seq) (c : Codes) (w : BitWriter) (ll off ml : Nat) :
    Nat → BitWriter × Nat × Nat × Nat
  | 0 => (w, ll, off, ml)
  | n + 1 =>
    let llCode := c.litLength.getD n 0
    let offCode := c.offset.getD n 0
    let mlCode := c.matchLength.getD n 0
    let (w, off) := t.offset.encoder.encode w off offCode
    let (w, ml) := t.matchLength.encoder.encode w ml mlCode
    let (w, ll) := t.litLength.encoder.encode w ll llCode
    writeStates t seqs c (writeExtra w (seqs.getD n default) llCode offCode mlCode) ll off ml n

def writeStream (t : Tables) (seqs : Array Seq) (c : Codes) : ByteArray :=
  let n := seqs.size - 1
  let llCode := c.litLength.getD n 0
  let offCode := c.offset.getD n 0
  let mlCode := c.matchLength.getD n 0
  let w := writeExtra {} (seqs.getD n default) llCode offCode mlCode
  let (w, ll, off, ml) := writeStates t seqs c w (t.litLength.encoder.init llCode)
    (t.offset.encoder.init offCode) (t.matchLength.encoder.init mlCode) n
  let w := t.matchLength.encoder.finish w ml
  let w := t.offset.encoder.finish w off
  (t.litLength.encoder.finish w ll).close

/-- The chosen tables of a block, and their written forms. -/
structure Choices where
  tables : Tables
  head : ByteArray
  lastHead : Nat

def chooseTables (c : Codes) (old : Tables) (s : Strategy) : Option Choices := do
  let ll ← chooseTable litLengthKind c.litLength old.litLength s
  let off ← chooseTable offsetKind c.offset old.offset s
  let ml ← chooseTable matchLengthKind c.matchLength old.matchLength s
  let sources := 64 * ll.source.bits + 16 * off.source.bits + 4 * ml.source.bits
  let lastHead := [ll, off, ml].foldl (fun n c => if c.source = .written then c.head.size else n) 0
  return {
    tables := { litLength := ll.table, offset := off.table, matchLength := ml.table }
    head := ByteArray.empty.push sources.toUInt8 ++ ll.head ++ off.head ++ ml.head
    lastHead }

/-- Write the section: its bytes, and the tables known afterwards. A written distribution at the very end leaves fewer
than four bytes to its reader; such a block is not coded. -/
def write (seqs : Array Seq) (old : Tables) (s : Strategy) : Option (ByteArray × Tables) :=
  let count := writeCount seqs.size
  if seqs.size = 0 then some (count, old)
  else do
    let c := codesOf seqs
    let choices ← chooseTables c old s
    let stream := writeStream choices.tables seqs c
    if choices.lastHead ≠ 0 ∧ choices.lastHead + stream.size < 4 then none
    else return (count ++ choices.head ++ stream, choices.tables)

end ZstCodec.Sequence
