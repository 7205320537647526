import ZstCodec.Params.Settings
import ZstCodec.Match.Fill
import ZstCodec.Block.Encode
import ZstCodec.Dictionary.Format

/-! # Dictionaries prepared for compression

Preparing a dictionary enters its content into search tables and reads the codes of a full one. A compressor either
*attaches* the tables, beside its own, or *copies* them: attaching is for short inputs and for those of unknown length. -/

namespace ZstCodec.Compress

structure Dictionary where
  size : Nat
  id : Nat
  finder : Match.Finder
  coding : Block.Coding := {}
  reps : Reps := .start
  deriving Inhabited

namespace Dictionary

def covers (d : Fse.Distribution) (max : Nat) : Bool :=
  max < d.counts.size && (List.range (max + 1)).all fun s => d.counts.getD s 0 ≠ 0

/-- A code table that may be used again, without a check if it has all codes up to `max`. -/
def tableOf (d : Fse.Distribution) (max : Nat) : Sequence.Table :=
  { encoder := d.encoder, known := if covers d max then .complete else .unchecked }

def codingOf (e : ZstCodec.Dictionary.Entropy) (content : Nat) : Block.Coding :=
  let allWeights := e.literals.weights.size = 256 && e.literals.weights.all (· ≠ 0)
  let reach := min (highBit (content + Block.maxSize)) Sequence.offsetKind.maxCode
  let offset : Fse.Distribution :=
    { e.offset with counts := e.offset.counts ++ Array.replicate (Sequence.offsetKind.maxCode + 1 - e.offset.counts.size) 0 }
  { literals := { code := e.literals.code, known := if allWeights then .complete else .unchecked }
    sequences := {
      litLength := tableOf e.litLength Sequence.litLengthKind.maxCode
      matchLength := tableOf e.matchLength Sequence.matchLengthKind.maxCode
      offset := { tableOf offset reach with
        known := if covers e.offset reach then .complete else .unchecked } } }

def leastSize : Nat := 8

def prepare (s : Settings) (level : Int) (b : ByteArray) (type : ZstCodec.Dictionary.ContentType) :
    Except Fault Dictionary := do
  let t := s.tuning level none b.size .preparing
  let f := { Match.Finder.fresh t t.usesRows with salt := 0, hash3Log := 0 }
  if b.size < leastSize then
    if type = .full then throw .dictionaryMismatch
    return { size := b.size, id := 0, finder := f }
  let marked := ZstCodec.Dictionary.isMarked b
  if type = .full && ! marked then throw .dictionaryMismatch
  if type = .raw || ! marked then
    return {
      size := b.size
      id := 0
      finder := f.load b s.forceMaxWindow Match.Finder.fillDictionary }
  let e ← ZstCodec.Dictionary.Entropy.read b
  let content := slice b e.size b.size
  return {
    size := b.size
    id := if s.dictIdFlag then ZstCodec.Dictionary.identifier b else 0
    finder := f.load content s.forceMaxWindow Match.Finder.fillDictionary
    coding := codingOf e content.size
    reps := e.reps }

def attachLimit (s : Strategy) : Nat :=
  if s.rank = 2 then 16384 else if 3 ≤ s.rank ∧ s.rank ≤ 7 then 32768 else 8192

def attaches (d : Dictionary) (forceWindow : Bool) (pledged : Option Nat) : Bool :=
  ! forceWindow && match pledged with
    | none => true
    | some n => n ≤ attachLimit d.finder.tuning.strategy

/-- The tuning of a frame that uses the dictionary, where the window is settled. -/
def tuning (d : Dictionary) (attach : Bool) (pledged : Option Nat) (windowLog : Nat) : Tuning :=
  let t := d.finder.tuning
  { (if attach then t.fit pledged d.size .attached else t) with windowLog }

def attach (d : Dictionary) (t : Tuning) (rows : Bool) : Match.Finder :=
  let f := Match.Finder.fresh t rows
  let g := d.finder
  let stop := g.content.size
  if stop = g.start then f
  else
    { f with
      content := g.content
      low := stop, start := stop, next := stop, dictEnd := stop
      attached := some {
        tuning := g.tuning, tables := g.tables, low := g.start, stop, rows := g.rows } }

def copy (d : Dictionary) (t : Tuning) : Match.Finder :=
  let g := d.finder
  let f := Match.Finder.fresh t g.rows
  { f with
    content := g.content
    low := g.low, start := g.start, next := g.next, dictEnd := g.dictEnd
    salt := g.salt
    tables := { g.tables.untagged t.strategy with hash3 := f.tables.hash3 } }

end Dictionary

end ZstCodec.Compress
