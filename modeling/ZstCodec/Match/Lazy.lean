import ZstCodec.Match.Chain
import ZstCodec.Match.Row
import ZstCodec.Match.LateTree

/-! # The greedy and lazy strategies

At each place the longest match is searched for, and a repetition one byte ahead is tested. The greedy strategy takes
what it finds. Lazy strategies look one or two bytes further and prefer what is longer by more than its place and offset
cost. Steps grow while no match is found; positions that large steps pass over are not entered. -/

namespace ZstCodec.Match.Lazy

/-- What stays fixed while a block is searched. -/
structure Scan where
  finder : Finder
  b : ByteArray
  older : Older
  start : Nat
  stop : Nat
  limit : Nat
  depth : Nat
  search : Searcher
  dictLow : Nat

def skippingStep : Nat := 8

@[inline] def Scan.allows (s : Scan) (pos offset : Nat) : Bool :=
  match s.older with
  | .nothing => 0 < offset
  | .dictionary => offset ≤ pos && Fast.clearOf s.start (pos - offset)
  | .segment => offset ≤ pos - s.finder.lowest pos && Fast.clearOf s.start (pos - offset)

/-- The length of the repetition by `offset` at `pos`, zero if there is none. -/
@[inline] def Scan.repetition (s : Scan) (pos offset : Nat) : Nat :=
  if s.allows pos offset && same4 s.b pos (pos - offset) then agreement s.b (pos + 4) (pos + 4 - offset) s.stop + 4 else 0

/-- A match and where it starts. -/
structure Choice where
  length : Nat
  code : Nat
  at_ : Nat

/-- What a match is worth: `weight` per byte, less the bits of its offset. -/
@[inline] def Choice.gain (c : Choice) (weight : Nat) : Int := (c.length * weight : Nat) - highBit c.code

@[inline] def Scan.preferRepetition (s : Scan) (rep1 pos weight : Nat) (c : Choice) : Choice :=
  let n := s.repetition pos rep1
  if 4 ≤ n && c.gain weight + 1 < (n * weight : Nat) then ⟨n, 1, pos⟩ else c

/-- A match found at `pos` instead of the choice, if it is worth more than `margin` above it. -/
@[inline] def preferFound (best : Best) (pos : Nat) (margin : Int) (c : Choice) : Option Choice :=
  let d : Choice := ⟨best.length, best.code, pos⟩
  if 4 ≤ best.length && c.gain 4 + margin < d.gain 4 then some d else none

def improve (s : Scan) (rep1 : Nat) (skipping : Bool) (e : Entries) (pos : Nat) (c : Choice) :
    Nat → Entries × Choice
  | 0 => (e, c)
  | fuel + 1 =>
    if s.limit ≤ pos then (e, c)
    else
      let pos := pos + 1
      let c := s.preferRepetition rep1 pos 3 c
      let ⟨e, best⟩ := s.search e pos skipping
      match preferFound best pos 4 c with
      | some c => improve s rep1 skipping e pos c fuel
      | none =>
        if s.depth < 2 || s.limit ≤ pos then (e, c)
        else
          let pos := pos + 1
          let c := s.preferRepetition rep1 pos 4 c
          let ⟨e, best⟩ := s.search e pos skipping
          match preferFound best pos 7 c with
          | some c => improve s rep1 skipping e pos c fuel
          | none => (e, c)

structure Progress where
  entries : Entries
  skipping : Bool
  pos : Nat
  anchor : Nat
  rep1 : Nat
  rep2 : Nat
  seqs : Array Seq

def repeats (s : Scan) (e : Entries) (pos rep1 rep2 : Nat) (seqs : Array Seq) : Nat → Progress
  | 0 => ⟨e, false, pos, pos, rep1, rep2, seqs⟩
  | fuel + 1 =>
    let n := if pos ≤ s.limit then s.repetition pos rep2 else 0
    if n = 0 then ⟨e, false, pos, pos, rep1, rep2, seqs⟩
    else repeats s e (pos + n) rep2 rep1 (seqs.push ⟨0, 1, n⟩) fuel

@[inline] def Scan.floorOf (s : Scan) (m : Nat) : Nat :=
  match s.older with
  | .nothing => s.start
  | .dictionary => if m < s.start then s.dictLow else s.start
  | .segment => if m < s.start then s.finder.low else s.start

@[inline] def take (s : Scan) (e : Entries) (anchor rep1 rep2 : Nat) (seqs : Array Seq) (c : Choice) : Progress :=
  if 3 < c.code then
    let offset := c.code - 3
    let m := c.at_ - offset
    let back := backward s.b c.at_ anchor m (s.floorOf m)
    let at_ := c.at_ - back
    let pos := c.at_ + c.length
    repeats s e pos offset rep1 (seqs.push ⟨at_ - anchor, c.code, c.length + back⟩) (s.stop - pos)
  else
    let pos := c.at_ + c.length
    repeats s e pos rep1 rep2 (seqs.push ⟨c.at_ - anchor, c.code, c.length⟩) (s.stop - pos)

def parseFrom (s : Scan) (p : Progress) : Nat → Progress
  | 0 => p
  | fuel + 1 =>
    let ⟨e, skipping, pos, anchor, rep1, rep2, seqs⟩ := p
    if s.limit ≤ pos then ⟨e, skipping, pos, anchor, rep1, rep2, seqs⟩
    else
      let n := s.repetition (pos + 1) rep1
      if s.depth = 0 && n ≠ 0 then parseFrom s (take s e anchor rep1 rep2 seqs ⟨n, 1, pos + 1⟩) fuel
      else
        let ⟨e, best⟩ := s.search e pos skipping
        let c : Choice := if n < best.length then ⟨best.length, best.code, pos⟩ else ⟨n, 1, pos + 1⟩
        if c.length < 4 then
          let step := (pos - anchor) / 2 ^ searchStrength
          let skipping := skippingStep < (if s.older = .segment then step else step + 1)
          parseFrom s ⟨e, skipping, pos + step + 1, anchor, rep1, rep2, seqs⟩ fuel
        else
          let (e, c) := if s.depth = 0 then (e, c) else improve s rep1 skipping e pos c (s.stop - pos)
          parseFrom s (take s e anchor rep1 rep2 seqs c) fuel

def searchedDict (f : Finder) : Option Attached := if f.older = .dictionary then f.attached else none

def scan (f : Finder) (stop : Nat) : Scan :=
  let dict := searchedDict f
  let tree := f.tuning.strategy.usesTree
  { finder := f, b := f.content, older := f.older, start := f.start, stop
    limit := stop - (if f.rows && ! tree then 2 * hashReach else hashReach)
    depth := match f.tuning.strategy with | .greedy => 0 | .lazy => 1 | _ => 2
    search := if tree then LateTree.search f stop dict else if f.rows then Row.search f stop dict else Chain.search f stop dict
    dictLow := match dict with | some d => d.low | none => 0 }

/-- Parse the block from `i` to `j`. Offsets that reach too far are set aside, unless older bytes might hold what they
lead to. -/
def run (f : Finder) (e : Entries) (reps : Reps) (i j : Nat) : Entries × Reps × Array Seq × Nat :=
  let atStart := i = f.start && match searchedDict f with | some d => d.stop = d.low | none => true
  let pos := if atStart then i + 1 else i
  let far offset := f.older = .nothing && pos - f.lowestInSegment pos < offset
  let (rep2, saved2) := setAside reps.second (far reps.second)
  let (rep1, saved1) := setAside reps.first (far reps.first)
  let ⟨e, _, _, anchor, rep1, rep2, seqs⟩ := parseFrom (scan f j) ⟨e, false, pos, i, rep1, rep2, #[]⟩ (j - i)
  (e, restore reps rep1 rep2 saved1 saved2, seqs, j - anchor)

def parse (f : Finder) (reps : Reps) (i j : Nat) : Parsed :=
  let ⟨hash, chain, hash3, tags⟩ := f.tables
  let f := { f with tables := {} }
  let (⟨hash, chain, tags, next⟩, reps, seqs, rest) := run f ⟨hash, chain, tags, f.next⟩ reps i j
  { finder := { f with tables := { hash, chain, hash3, tags }, next }, reps, seqs, rest }

end ZstCodec.Match.Lazy
