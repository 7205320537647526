import ZstCodec.Params.Settings
import ZstCodec.Match.Parse
import ZstCodec.Match.LongDistance
import ZstCodec.Block.Split
import ZstCodec.Hash.XxHash64

/-! # Writing frames

A frame writer takes the input in pieces and gives the header before the first, blocks for each, and at the end the last
block and the checksum.

Every piece has a *place*. One that starts where the one before ended continues the segment; any other starts a new one.
Earlier segments can be referred to until new pieces take their places. -/

namespace ZstCodec.Compress

/-- How input is cut into jobs for several workers. -/
structure Jobs where
  size : Nat
  overlap : Nat
  tuning : Tuning

/-- What is settled when a frame starts. -/
structure Plan where
  tuning : Tuning
  rows : Bool
  splits : Bool
  forceWindow : Bool
  format : Frame.Format
  contentSizeFlag : Bool
  checksum : Bool
  dictId : Nat
  pledged : Option Nat
  jobs : Option Jobs := none

namespace Plan

def windowSize (p : Plan) : Nat :=
  match p.pledged with
  | none => 2 ^ p.tuning.windowLog
  | some n => max 1 (min (2 ^ p.tuning.windowLog) n)

def blockSize (p : Plan) : Nat := min Block.maxSize p.windowSize

def header (p : Plan) : ByteArray :=
  Frame.Description.write {
    format := p.format
    windowLog := p.tuning.windowLog
    contentSize := if p.contentSizeFlag then p.pledged else none
    dictId := p.dictId
    checksum := p.checksum }

def policy (p : Plan) : Block.Policy :=
  { strategy := p.tuning.strategy
    storeLiterals := p.tuning.strategy = .fast && 0 < p.tuning.targetLength }

end Plan

/-- Position `n` of the segment at hand has the place `base + n`, one of the older segment `older + n`. The next piece
continues the segment if it starts at `next`. -/
structure Places where
  base : Int
  older : Int
  next : Int
  deriving Repr

def directPlace : Int := 2 ^ 60

def Places.nowhere : Places := { base := -2 ^ 60, older := -2 ^ 60, next := -2 ^ 60 }

/-- How far a frame has got. -/
inductive Stage where
  | created
  | beforeHeader
  | ongoing
  | ending
  deriving DecidableEq, Repr

structure Writer where
  plan : Plan
  finder : Match.Finder
  longDistance : Option Match.LongDistance := none
  coding : Block.Coding := {}
  reps : Reps := .start
  origin : Nat := Match.firstPosition
  places : Places := .nowhere
  stage : Stage := .beforeHeader
  firstBlock : Bool := true
  consumed : Nat := 0
  produced : Nat := 0

namespace Writer

/-! ### Segments -/

/-- The bounds when a new segment starts at `size`: the one before becomes the older segment, unless it is very short. -/
def turnOver (start size : Nat) : Nat × Nat := (if size - start < Match.hashReach then size else start, size)

/-- The lower bound of the older segment after `n` bytes have been put at `place`. -/
def overwrite (older place n : Int) (low start : Nat) : Nat :=
  if place + n > older + low ∧ place < older + start then min (place + n - older).toNat start else low

/-- The bounds of the segments after `n` bytes have been put at `place`. -/
def bounds (fresh : Bool) (older place n : Int) (size low start : Nat) : Nat × Nat :=
  let (low, start) := if fresh then turnOver start size else (low, start)
  (overwrite older place n low start, start)

def extend (w : Writer) (place : Int) (piece : ByteArray) : Writer :=
  let n : Int := piece.size
  let size := w.finder.content.size
  let p := w.places
  let fresh : Bool := place ≠ p.next
  let p := if fresh then { p with older := p.base, base := place - size } else p
  let longDistance := w.longDistance.map fun l =>
    let (low, start) := bounds fresh p.older place n size l.low l.start
    { l with low, start }
  let ⟨tuning, rows, content, low, start, next, dictEnd, tables, salt, hash3Log, skipping, prices, attached⟩ := w.finder
  let (low, start) := bounds fresh p.older place n size low start
  let next := if fresh then size else next
  { w with
    finder := { tuning, rows, content := content ++ piece, low, start, next, dictEnd, tables, salt
                hash3Log, skipping, prices, attached }
    longDistance
    places := { p with next := place + n } }

def mostPositions : Nat := 3 * 2 ^ 29 + 2 ^ 31

/-- Forget a dictionary that leaves the window before `j`, or lies before an older segment. -/
def forgetDictionary (f : Match.Finder) (j : Nat) : Match.Finder :=
  if j > f.dictEnd + 2 ^ f.tuning.windowLog || f.dictEnd ≠ f.start || j > mostPositions then
    { f with dictEnd := 0, attached := none }
  else f

def forgetFar (f : Match.Finder) (i : Nat) : Match.Finder :=
  let reach := 2 ^ f.tuning.windowLog
  if reach + f.dictEnd < i then
    let low := max f.low (i - reach)
    { f with low, start := max f.start low, dictEnd := 0, attached := none }
  else f

def limitWindow (f : Match.Finder) (i j : Nat) : Match.Finder :=
  let f := forgetFar (forgetDictionary f j) i
  { f with next := max f.next f.low }

/-! ### Blocks -/

def isRun (b : ByteArray) (i j : Nat) : Bool := sameBytes b i b (i + 1) (j - i - 1)

def leastSearched : Nat := 7

/-- A body at least that long is never replaced by a single repeated byte. -/
def runLimit : Nat := 25

def store (w : Writer) (i j : Nat) (last : Bool) (out : ByteArray) : ByteArray :=
  let out := Block.Header.write out { last, kind := .stored, size := j - i }
  w.finder.content.copySlice i out out.size (j - i)

def storeRun (w : Writer) (i j : Nat) (last : Bool) (out : ByteArray) : ByteArray :=
  (Block.Header.write out { last, kind := .repeated, size := j - i }).push (byteAt w.finder.content i)

/-- Look for long matches in the block from `i` to `j`, unless the window is too small for any. -/
def findLong (w : Writer) (i j : Nat) : Writer × Option Match.Ahead :=
  match w.longDistance with
  | none => (w, none)
  | some l =>
    let w := { w with longDistance := none }
    let (l, ahead) := if w.plan.blockSize < l.tuning.minMatch then (l, {}) else l.find w.finder.content i j
    ({ w with longDistance := some l }, some ahead)

def parseBlock (w : Writer) (i j : Nat) : Writer × Reps × Block.Cut :=
  let (w, ahead) := w.findLong i j
  let f := w.finder.catchUp i
  let w := { w with finder := default }
  let ⟨f, reps, seqs, rest⟩ := f.parse ahead w.reps i j
  ({ w with finder := f }, reps, { start := i, seqs, rest })

/-- The block from `i` to `j` is written as one byte repeated. The first block of a frame never is. -/
def repeats (w : Writer) (i j : Nat) (coded : Option (ByteArray × Block.Coding)) : Bool :=
  let size := match coded with | none => 0 | some (body, _) => body.size
  ! w.firstBlock && size < runLimit && isRun w.finder.content i j

def writeCut (w : Writer) (i j : Nat) (last : Bool) (cut : Block.Cut) (reps : Reps) (out : ByteArray) : Writer × ByteArray :=
  let literals := cut.literals w.finder.content
  let coded := Block.writeShorter w.plan.policy (j - i) literals cut.seqs w.coding
  if w.repeats i j coded then
    ({ w with coding := w.coding.later }, w.storeRun i j last out)
  else match coded with
    | none => ({ w with coding := w.coding.later }, w.store i j last out)
    | some (body, coding) =>
      ({ w with coding := coding.later, reps },
        Block.Header.write out { last, kind := .compressed, size := body.size } ++ body)

/-- Write the parts of a block from the sequence `k` on; the sequences are meant with the offsets `meant`. -/
def writeParts (w : Writer) (i j k : Nat) (last : Bool) (cut : Block.Cut) (meant : Reps) (out : ByteArray) :
    List Nat → Writer × ByteArray
  | [] =>
    let (seqs, told, _) := Block.retell w.reps meant #[] (cut.seqs.extract k cut.seqs.size).toList
    w.writeCut i j last { start := i, seqs, rest := cut.rest } told out
  | stop :: ends =>
    let (seqs, told, meant) := Block.retell w.reps meant #[] (cut.seqs.extract k stop).toList
    let next := i + Block.spanOf seqs
    let (w, out) := w.writeCut i next false { start := i, seqs, rest := 0 } told out
    writeParts w next j stop last cut meant out ends

def writeBlock (w : Writer) (i j : Nat) (last : Bool) (out : ByteArray) : Writer × ByteArray :=
  let (w, out) :=
    if j - i < leastSearched then
      ({ w with coding := w.coding.later }, w.store i j last out)
    else
      let (w, reps, cut) := w.parseBlock i j
      let ends := if w.plan.splits then Block.cuts w.plan.policy w.coding (cut.literals w.finder.content) cut.seqs else #[]
      if ends.isEmpty then w.writeCut i j last cut reps out
      else w.writeParts i j 0 last cut w.reps out ends.toList
  ({ w with firstBlock := false }, out)

def writeBlocks (w : Writer) (lastPiece : Bool) (out : ByteArray) (i : Nat) : Nat → Writer × ByteArray
  | 0 => (w, out)
  | fuel + 1 =>
    let stop := w.finder.content.size
    if stop ≤ i then (w, out)
    else
      let j := min stop (i + w.plan.blockSize)
      let w := { w with finder := limitWindow w.finder i j }
      let (w, out) := w.writeBlock i j (lastPiece && j = stop) out
      writeBlocks w lastPiece out j fuel

/-! ### Pieces -/

def add (w : Writer) (place : Int) (piece : ByteArray) (last : Bool) : Writer × Except Fault ByteArray :=
  if w.stage = .created then (w, .error .wrongStage)
  else
    let header := if w.stage = .beforeHeader then w.plan.header else .empty
    let w := if w.stage = .beforeHeader then { w with stage := .ongoing } else w
    if piece.size = 0 then (w, .ok header)
    else
      let w := w.extend place piece
      let headerSize := header.size
      let (w, out) := w.writeBlocks last header (w.finder.content.size - piece.size) piece.size
      let w := { w with
        stage := if last && headerSize < out.size then .ending else w.stage
        consumed := w.consumed + piece.size
        produced := w.produced + out.size }
      match w.plan.pledged with
      | some n => if n < w.consumed then (w, .error .sourceSizeWrong) else (w, .ok out)
      | none => (w, .ok out)

/-- What ends a frame: a last block, unless it is written already, and the checksum of `b` from `i` on. -/
def ending (w : Writer) (b : ByteArray) (i : Nat) (out : ByteArray) : ByteArray :=
  let out := if w.stage = .ending then out else Block.Header.write out { last := true, kind := .stored, size := 0 }
  if w.plan.checksum then
    putLe out ((XxHash64.range b i b.size).toNat % 2 ^ 32) 4
  else out

def finish (w : Writer) (place : Int) (piece : ByteArray) : Writer × Except Fault ByteArray :=
  match w.add place piece true with
  | (w, .error e) => (w, .error e)
  | (w, .ok out) =>
    let out := w.ending w.finder.content w.origin out
    let w := { w with stage := .created }
    match w.plan.pledged with
    | some n => if n = w.consumed then (w, .ok out) else (w, .error .sourceSizeWrong)
    | none => (w, .ok out)

end Writer

end ZstCodec.Compress
