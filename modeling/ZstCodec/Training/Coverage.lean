import ZstCodec.Match.Hash
import ZstCodec.Match.Table

/-! # Content that covers samples

The content of a trained dictionary is put together from segments of the samples. Every position starts a *word* of six
or eight bytes, told apart by a hash. A segment is worth the number of occurrences of all words in it, each counted
once. From each epoch of the samples the best segment is taken, and its words are worth nothing from then on. Segments
found first stand last, where they are cheapest to refer to. -/

namespace ZstCodec.Training

open ZstCodec.Match

/-- Samples, one behind the other. -/
structure Samples where
  bytes : ByteArray := .empty
  ends : Array Nat := #[]

namespace Samples

def push (s : Samples) (b : ByteArray) : Samples :=
  { bytes := s.bytes ++ b, ends := s.ends.push (s.bytes.size + b.size) }

def ofList (xs : List ByteArray) : Samples := xs.foldl push {}

def count (s : Samples) : Nat := s.ends.size

/-- Where the sample `i` starts; for the number of samples, where the last one ends. -/
def startOf (s : Samples) (i : Nat) : Nat := if i = 0 then 0 else s.ends.getD (i - 1) 0

def get (s : Samples) (i : Nat) : ByteArray := slice s.bytes (s.startOf i) (s.startOf (i + 1))

end Samples

def wordReach : Nat := 8

/-- How words are told apart. -/
structure Words where
  length : Nat
  bits : Nat
  deriving Repr

def Words.hasher (w : Words) : Hasher := Hasher.ofWidth w.length w.bits 0

/-! ### Occurrences -/

def countFrom (h : Hasher) (b : ByteArray) (stop step : Nat) (i : Nat) (counts : Table) : Nat → Table
  | 0 => counts
  | fuel + 1 =>
    if i + wordReach ≤ stop then
      let k := h.hashAt b i
      countFrom h b stop step (i + step) (counts.set k (counts.get k + 1)) fuel
    else counts

def occurrences (w : Words) (s : Samples) (n step : Nat) : Table :=
  (List.range n).foldl
    (fun counts i => countFrom w.hasher s.bytes (s.startOf (i + 1)) step (s.startOf i) counts (s.get i).size)
    (.zeros w.bits)

/-! ### The best segment -/

/-- Words from `start` to `stop - 1`, and what they are worth. -/
structure Segment where
  start : Nat
  stop : Nat
  score : Nat
  deriving Repr

def wordCountModulus : Nat := 65536

/-- Let a segment of `width` words slide over the next `n` words; `inside` counts its words. -/
def slide (h : Hasher) (b : ByteArray) (worth : Table) (width : Nat) (inside : Table) (s best : Segment) :
    Nat → Table × Segment × Segment
  | 0 => (inside, s, best)
  | n + 1 =>
    let k := h.hashAt b s.stop
    let c := inside.get k
    let inside := inside.set k ((c + 1) % wordCountModulus)
    let s := { s with stop := s.stop + 1, score := if c = 0 then s.score + worth.get k else s.score }
    let (inside, s) :=
      if s.stop - s.start = width + 1 then
        let k := h.hashAt b s.start
        let c := (inside.get k + (wordCountModulus - 1)) % wordCountModulus
        (inside.set k c,
          { s with start := s.start + 1, score := if c = 0 then s.score - worth.get k else s.score })
      else (inside, s)
    slide h b worth width inside s (if best.score < s.score then s else best) n

def clear (h : Hasher) (b : ByteArray) (i : Nat) (t : Table) : Nat → Table
  | 0 => t
  | n + 1 => clear h b (i + 1) (t.set (h.hashAt b i) 0) n

def takeBest (h : Hasher) (b : ByteArray) (width i j : Nat) (worth inside : Table) : Segment × Table × Table :=
  let (inside, s, best) :=
    slide h b worth width inside { start := i, stop := i, score := 0 } { start := 0, stop := 0, score := 0 } (j - i)
  (best, clear h b best.start worth (best.stop - best.start), clear h b s.start inside (s.stop - s.start))

/-! ### Epochs -/

/-- The samples are looked through in `count` parts of `size` words each. -/
structure Epochs where
  count : Nat
  size : Nat
  deriving Repr

def leastSegments : Nat := 10

/-- One epoch for each segment of `length` bytes, unless the epochs would be short. -/
def Epochs.of (capacity words length : Nat) : Epochs :=
  let count := max 1 (capacity / length)
  let size := words / count
  if leastSegments * length ≤ size then { count, size }
  else
    let size := min (leastSegments * length) words
    { count := words / size, size }

def emptyLimit : Nat := 10

/-- What is being put together. -/
structure Gathering where
  worth : Table
  inside : Table
  room : Nat
  /-- Epochs without anything worth taking, since the last one that had something. -/
  empty : Nat := 0
  pieces : List ByteArray := []

/-- Go through the epochs in turn until the room is used up or nothing is left to take. -/
def gatherFrom (w : Words) (b : ByteArray) (length : Nat) (e : Epochs) (g : Gathering) (epoch : Nat) :
    Nat → List ByteArray
  | 0 => g.pieces
  | fuel + 1 =>
    if g.room = 0 then g.pieces
    else
      let i := epoch * e.size
      let next := (epoch + 1) % e.count
      let ⟨worth, inside, room, empty, pieces⟩ := g
      let (s, worth, inside) := takeBest w.hasher b (length - w.length + 1) i (i + e.size) worth inside
      if s.score = 0 then
        if emptyLimit ≤ empty + 1 then pieces
        else gatherFrom w b length e { worth, inside, room, empty := empty + 1, pieces } next fuel
      else
        let n := min (s.stop - s.start + w.length - 1) room
        if n < w.length then pieces
        else
          gatherFrom w b length e
            { worth, inside, room := room - n, empty := 0, pieces := slice b s.start (s.start + n) :: pieces } next fuel

/-- Content of `capacity` bytes from segments of `length`, where the words occur as `worth` says. -/
def gather (w : Words) (b : ByteArray) (stop length capacity : Nat) (worth : Table) : ByteArray :=
  let words := stop - wordReach + 1
  let g : Gathering := { worth, inside := .zeros w.bits, room := capacity }
  (gatherFrom w b length (.of capacity words length) g 0 (emptyLimit * (capacity + 1))).foldl (· ++ ·) .empty

end ZstCodec.Training
