import ZstCodec.Match.Tree
import ZstCodec.Match.LongSeq

/-! # The cheapest parse

The strategies btopt, btultra and btultra2 look for the cheapest way to code a stretch of a block. From a place that has
a match, nodes hold the cheapest way found so far to each place ahead. Place by place, a node is compared with one more
literal from the node before it, and all matches of the place are offered to the nodes they lead to. The stretch ends
where nothing leads further, or at a match that is long enough. Then the sequences are read off backwards, and counted
for the next prices. -/

namespace ZstCodec.Match.Optimal

def dearest : Int := 2 ^ 30

/-! ### Matches found ahead -/

/-- The next long match, as a range of positions; it lies behind the block if there is none. -/
structure Prospect where
  ahead : Ahead
  start : Nat := 0
  stop : Nat := 0
  offset : Nat := 0

def nowhere (stop : Nat) : Nat := stop + 1

namespace Prospect

/-- Take the next long match, for a search that stands at `pos` in a block up to `stop`. -/
def advance (p : Prospect) (pos stop : Nat) : Prospect :=
  let a := p.ahead
  if a.done then { p with start := nowhere stop, stop := nowhere stop }
  else
    let s := a.seqs.getD a.pos default
    let literals := s.literals - a.within
    let length := if literals = 0 then s.length - (a.within - s.literals) else s.length
    if stop - pos ≤ literals then { p with ahead := a.pass (stop - pos), start := nowhere stop, stop := nowhere stop }
    else
      let start := pos + literals
      if stop < start + length then { ahead := a.pass (stop - pos), start, stop, offset := s.offset }
      else { ahead := a.pass (literals + length), start, stop := start + length, offset := s.offset }

def offer (p : Prospect) (found : Array Best) (pos stop : Nat) : Prospect × Array Best :=
  if p.ahead.done then (p, found)
  else
    let p := if p.stop ≤ pos then
        advance (if p.stop < pos then { p with ahead := p.ahead.pass (pos - p.stop) } else p) pos stop
      else p
    if pos < p.start || p.stop ≤ pos || p.stop - pos < 3 then (p, found)
    else
      let n := p.stop - pos
      match found.back? with
      | none => (p, #[⟨n, p.offset + 3⟩])
      | some last => if last.length < n then (p, found.push ⟨n, p.offset + 3⟩) else (p, found)

end Prospect

/-! ### Laying out a stretch -/

/-- What stays fixed while a stretch is laid out. -/
structure Scan where
  hunt : Tree.Hunt
  prices : Prices
  fine : Bool

namespace Scan

@[inline] def b (s : Scan) : ByteArray := s.hunt.ground.b
@[inline] def stop (s : Scan) : Nat := s.hunt.ground.stop

@[inline] def limit (s : Scan) : Nat := s.stop - hashReach

@[inline] def literal (s : Scan) (pos : Nat) : Int := s.prices.literalPrice s.fine (natAt s.b pos)

@[inline] def literals (s : Scan) (n : Nat) : Int := s.prices.litLengthPrice s.fine n

@[inline] def literalsStep (s : Scan) (n : Nat) : Int := s.literals n - s.literals (n - 1)

end Scan

@[inline] def nodeAt (nodes : Array Node) (i : Nat) : Node := nodes.getD i {}

/-- State of a search. -/
structure Course where
  nodes : Array Node
  forest : Tree.Forest
  prospect : Prospect

@[inline] def matchesAt (s : Scan) (forest : Tree.Forest) (prospect : Prospect) (pos : Nat) (reps : Reps) (behind : Bool) :
    Tree.Harvest × Prospect :=
  let ⟨forest, found⟩ := Tree.allMatches s.hunt forest pos reps behind
  let (prospect, found) := prospect.offer found pos s.stop
  (⟨forest, found⟩, prospect)

/-- Price the first node's match with the code `code` to the places from `place` to `last`. -/
def openWith (s : Scan) (base : Int) (code last place : Nat) (nodes : Array Node) : Nat → Array Node
  | 0 => nodes
  | n + 1 =>
    if last < place then nodes
    else
      let price := base + s.prices.matchLengthPrice s.fine place
      let nodes := nodes.modify place fun node => { node with price, length := place, code, literals := 0 }
      openWith s base code last (place + 1) nodes n

/-- Only literals lead to the places before the least match, and matches to those behind. -/
def openStretch (s : Scan) (literals : Nat) (reps : Reps) (found : Array Best) (nodes : Array Node) : Array Node × Nat :=
  let price := s.literals literals
  let nodes := nodes.modify 0 fun node => { node with price, length := 0, literals, reps }
  let nodes := (List.range (s.hunt.least - 1)).foldl
    (fun nodes i => nodes.modify (i + 1) fun node =>
      { node with price := dearest, length := 0, literals := literals + i + 1 }) nodes
  let (nodes, place) := found.foldl
    (fun (acc : Array Node × Nat) f =>
      let (nodes, place) := acc
      let base := price + s.literals 0 + s.prices.offsetPrice s.fine f.code
      (openWith s base f.code f.length place nodes (f.length + 1 - place), max place (f.length + 1)))
    (nodes, s.hunt.least)
  (nodes.modify place fun node => { node with price := dearest }, place - 1)

def reachOut (nodes : Array Node) (last place : Nat) : Nat → Array Node
  | 0 => nodes
  | n + 1 =>
    if last < place then
      reachOut (nodes.modify (last + 1) fun node => { node with price := dearest, literals := 1 }) (last + 1) place n
    else nodes

/-- Offer the match of `least + n - 1` down to `least` bytes from the place `cur`. -/
def offerLengths (s : Scan) (base : Int) (code cur least : Nat) (nodes : Array Node) (last : Nat) :
    Nat → Array Node × Nat
  | 0 => (nodes, last)
  | n + 1 =>
    let length := least + n
    let place := cur + length
    let price := base + s.prices.matchLengthPrice s.fine length
    if last < place || price < (nodeAt nodes place).price then
      let nodes := reachOut nodes last place (place - last)
      let nodes := nodes.modify place fun node => { node with price, length, code, literals := 0 }
      offerLengths s base code cur least nodes (max last place) n
    else if s.fine then offerLengths s base code cur least nodes last n
    else (nodes, last)

def offerAll (s : Scan) (price : Int) (cur : Nat) (found : Array Best) (nodes : Array Node) (last : Nat) :
    Array Node × Nat :=
  let (nodes, last, _) := found.foldl
    (fun (acc : Array Node × Nat × Nat) f =>
      let (nodes, last, least) := acc
      let base := price + s.prices.offsetPrice s.fine f.code
      let (nodes, last) := offerLengths s base f.code cur least nodes last (f.length + 1 - least)
      (nodes, last, f.length + 1))
    (nodes, last, s.hunt.least)
  (nodes, last)

/-- Compare the node `cur` with one more literal from the node before. In fine prices, a match given up may still be the
better way to the next place. -/
def extend (s : Scan) (ip cur last : Nat) (nodes : Array Node) : Array Node × Nat :=
  let before := nodeAt nodes (cur - 1)
  let literals := before.literals + 1
  let price := before.price + s.literal (ip + cur - 1) + s.literalsStep literals
  let node := nodeAt nodes cur
  if price ≤ node.price then
    let nodes := nodes.setIfInBounds cur { before with literals, price }
    let step := s.literalsStep 1
    if s.fine && node.literals == 0 && step < 0 && ip + cur < s.stop then
      let next := s.literal (ip + cur)
      let withOne := node.price + next + step
      let withMore := price + next + s.literalsStep (literals + 1)
      if withOne < withMore && withOne < (nodeAt nodes (cur + 1)).price then
        let from_ := nodeAt nodes (cur - node.length)
        let reps := from_.reps.after from_.literals node.code
        (nodes.setIfInBounds (cur + 1) { node with reps, literals := 1, price := withOne }, max last (cur + 1))
      else (nodes, last)
    else (nodes, last)
  else (nodes, last)

/-- What is remembered at the place `cur` is filled in when the place is reached by a match. -/
def recalled (nodes : Array Node) (cur : Nat) : Array Node :=
  let node := nodeAt nodes cur
  if node.literals = 0 then
    let from_ := nodeAt nodes (cur - node.length)
    nodes.setIfInBounds cur { node with reps := from_.reps.after from_.literals node.code }
  else nodes

/-- Where a stretch ends: the last sequence, the place where it starts, and the last place. -/
structure End where
  course : Course
  final : Node
  cur : Nat
  last : Nat

def close (course : Course) (last : Nat) : End :=
  let final := nodeAt course.nodes last
  { course, final, cur := last - final.length, last }

/-- Go on from the place `cur` of the stretch at `ip`; `final` is the end of the stretch before. -/
def layOut (s : Scan) (ip : Nat) (final : Node) (course : Course) (cur last : Nat) : Nat → End
  | 0 => close course last
  | fuel + 1 =>
    let ⟨nodes, forest, prospect⟩ := course
    if last < cur then close ⟨nodes, forest, prospect⟩ last
    else
      let (nodes, last) := extend s ip cur last nodes
      let nodes := recalled nodes cur
      let node := nodeAt nodes cur
      if s.limit < ip + cur then layOut s ip final ⟨nodes, forest, prospect⟩ (cur + 1) last fuel
      else if cur = last then close ⟨nodes, forest, prospect⟩ last
      else if ! s.fine && (nodeAt nodes (cur + 1)).price ≤ node.price + 128 then
        layOut s ip final ⟨nodes, forest, prospect⟩ (cur + 1) last fuel
      else
        let (⟨forest, found⟩, prospect) := matchesAt s forest prospect (ip + cur) node.reps (node.literals = 0)
        match found.back? with
        | none => layOut s ip final ⟨nodes, forest, prospect⟩ (cur + 1) last fuel
        | some longest =>
          let n := longest.length
          if s.hunt.enough < n || Prices.stretchSize ≤ cur + n || s.stop ≤ ip + cur + n then
            { course := ⟨nodes, forest, prospect⟩
              final := { final with length := n, code := longest.code, literals := 0 }
              cur, last := cur + n }
          else
            let (nodes, last) := offerAll s (node.price + s.literals 0) cur found nodes last
            let nodes := nodes.modify (last + 1) fun node => { node with price := dearest }
            layOut s ip final ⟨nodes, forest, prospect⟩ (cur + 1) last fuel

/-! ### Reading off the sequences -/

/-- Follow the nodes from `place` back to the start. A sequence is kept at `at_` until its literals are known. -/
def readOff (nodes : Array Node) (place at_ : Nat) (seqs : List Seq) (head : Seq) : Nat → Array Node × List Seq
  | 0 => (nodes, head :: seqs)
  | fuel + 1 =>
    let node := nodeAt nodes place
    let nodes := nodes.modify at_ fun n => { n with literals := node.literals }
    let seqs := { head with litLength := node.literals } :: seqs
    if node.length = 0 then (nodes, seqs)
    else
      readOff (nodes.setIfInBounds (at_ - 1) node) (place - (node.literals + node.length)) (at_ - 1) seqs
        ⟨0, node.code, node.length⟩ fuel

/-- State between stretches. -/
structure Progress where
  course : Course
  prices : Prices
  final : Node
  reps : Reps
  pos : Nat
  anchor : Nat
  seqs : Array Seq

def take (b : ByteArray) (prices : Prices) (anchor : Nat) (seqs : Array Seq) : List Seq → Prices × Nat × Array Seq
  | [] => (prices, anchor, seqs)
  | s :: rest => take b (prices.addSequence b anchor s) (anchor + s.litLength + s.matchLength) (seqs.push s) rest

/-- Take the sequences of a stretch at `ip`. Literals behind the last match are left to the next one. -/
def finish (fine : Bool) (b : ByteArray) (prices : Prices) (reps : Reps) (ip anchor : Nat) (seqs : Array Seq) (e : End) :
    Progress :=
  let ⟨⟨nodes, forest, prospect⟩, final, cur, last⟩ := e
  if final.length = 0 then ⟨⟨nodes, forest, prospect⟩, prices, final, reps, ip + last, anchor, seqs⟩
  else
    let here := nodeAt nodes cur
    let (reps, cur) :=
      if final.literals = 0 then (here.reps.after here.literals final.code, cur)
      else (final.reps, cur - final.literals)
    let nodes := if 0 < final.literals then nodes.setIfInBounds (cur + 1) final else nodes
    let nodes := nodes.setIfInBounds (cur + 2) final
    let (nodes, list) := readOff nodes cur (cur + 2) [] ⟨0, final.code, final.length⟩ (cur + 2)
    let (prices, anchor, seqs) := take b prices anchor seqs list
    ⟨⟨nodes, forest, prospect⟩, prices.settle fine, final, reps, anchor, anchor, seqs⟩

def stretches (hunt : Tree.Hunt) (fine : Bool) (p : Progress) : Nat → Progress
  | 0 => p
  | fuel + 1 =>
    let ⟨course, prices, final, reps, pos, anchor, seqs⟩ := p
    if hunt.ground.stop - hashReach ≤ pos then ⟨course, prices, final, reps, pos, anchor, seqs⟩
    else
      let s : Scan := { hunt, prices, fine }
      let ⟨nodes, forest, prospect⟩ := course
      let (⟨forest, found⟩, prospect) := matchesAt s forest prospect pos reps (pos = anchor)
      match found.back? with
      | none => stretches hunt fine ⟨⟨nodes, forest, prospect⟩, prices, final, reps, pos + 1, anchor, seqs⟩ fuel
      | some longest =>
        let e : End :=
          if hunt.enough < longest.length then
            let literals := pos - anchor
            let price := s.literals literals
            let nodes := nodes.modify 0 fun node => { node with price, length := 0, literals, reps }
            { course := ⟨nodes, forest, prospect⟩
              final := { final with length := longest.length, code := longest.code, literals := 0 }
              cur := 0, last := longest.length }
          else
            let (nodes, last) := openStretch s (pos - anchor) reps found nodes
            layOut s pos final ⟨nodes, forest, prospect⟩ 1 last (2 * Prices.stretchSize)
        stretches hunt fine (finish fine hunt.ground.b prices reps pos anchor seqs e) fuel

def parseOnce (f : Finder) (fine : Bool) (ahead : Ahead) (reps : Reps) (i j : Nat) : Parsed :=
  let ⟨hash, tree, hash3, tags⟩ := f.tables
  let prices := f.prices.begin_ fine f.content i j
  let f := { f with tables := {}, prices := {} }
  let nodes := prices.nodes
  let prices := { prices with nodes := #[] }
  let prospect := ({ ahead } : Prospect).advance i j
  let pos := if i = f.start then i + 1 else i
  let p := stretches (Tree.hunt f j) fine
    ⟨⟨nodes, ⟨hash, tree, hash3, f.next, f.next⟩, prospect⟩, prices, {}, reps, pos, i, #[]⟩ (j - i)
  let ⟨⟨nodes, forest, _⟩, prices, _, reps, _, anchor, seqs⟩ := p
  { finder := { f with
      tables := { hash := forest.hash, chain := forest.tree, hash3 := forest.hash3, tags }
      prices := { prices with nodes }
      next := forest.next }
    reps, seqs, rest := j - anchor }

/-- Cut the block from `i` to `j`. A first block is gone over twice by btultra2, once for its prices. -/
def parse (f : Finder) (ahead : Ahead) (reps : Reps) (i j : Nat) : Parsed :=
  let fine := f.tuning.strategy ≠ .btopt
  let twice := f.tuning.strategy = .btultra2 && ! f.prices.started && f.older = .nothing && i = f.start
    && hashReach < j - i
  if twice then
    let ⟨g, _, _, _⟩ := parseOnce f fine ahead reps i j
    let g := { g with tables := Finder.freshTables g.tuning g.rows g.hash3Log, next := g.start }
    parseOnce g fine ahead reps i j
  else parseOnce f fine ahead reps i j

end ZstCodec.Match.Optimal
