import ZstCodec.Match.Search

/-! # Trees of positions

Positions with the same hash are kept in a binary search tree, ordered by the bytes that follow them, with two entries
for a position: the roots of what is smaller and larger. A position that is entered becomes the root, and what is met on
the way down is split. Bytes in common with the nearest smaller and larger one need not be compared again.

A search for all matches gives a list in which every match is longer than the one before it. -/

namespace ZstCodec.Match.Tree

/-! ### Splitting -/

/-- What stays fixed during a search. -/
structure Ground where
  b : ByteArray
  ring : Nat
  start : Nat
  low : Nat
  window : Nat
  stop : Nat

def Ground.nowhere (g : Ground) : Nat := 2 * g.ring

/-- Where the next smaller and larger position go, and how many bytes those so far have in common with the place at hand. -/
structure Split where
  smallerAt : Nat
  largerAt : Nat
  smallerCommon : Nat := 0
  largerCommon : Nat := 0

/-- Bytes that every position still to be met has in common with the place at hand. -/
@[inline] def Split.common (s : Split) : Nat := min s.smallerCommon s.largerCommon

@[inline] def Split.close (s : Split) (tree : Table) : Table := (tree.set s.smallerAt 0).set s.largerAt 0

/-- Put the position `m`, which agrees for `n` bytes, on its side. The answer tells where to go on. -/
@[inline] def Split.hang (s : Split) (g : Ground) (tree : Table) (m n : Nat) (smaller : Bool) (floor : Nat) :
    Table × Split × Option Nat :=
  let at_ := 2 * (m % g.ring)
  if smaller then
    let tree := tree.set s.smallerAt m
    if m ≤ floor then (tree, { s with smallerAt := g.nowhere, smallerCommon := n }, none)
    else (tree, { s with smallerAt := at_ + 1, smallerCommon := n }, some (tree.get (at_ + 1)))
  else
    let tree := tree.set s.largerAt m
    if m ≤ floor then (tree, { s with largerAt := g.nowhere, largerCommon := n }, none)
    else (tree, { s with largerAt := at_, largerCommon := n }, some (tree.get at_))

/-! ### Walking -/

/-- What a walk leaves: the tree, what was gathered, how many more positions could be met, and whether it was ended. -/
structure Walked (α : Type) where
  tree : Table
  got : α
  left : Nat
  done : Bool

/-- Go down from `m` and split the tree at `pos`, down to `least`; positions up to `floor` are not followed. `visit` is told
of a position and of how many bytes it has in common with `pos`, and may end the walk. -/
@[specialize] def walk {α : Type} (visit : α → Nat → Nat → α × Bool) (g : Ground) (pos least floor stop : Nat) (s : Split)
    (m : Nat) (tree : Table) (a : α) : Nat → Walked α
  | 0 => ⟨s.close tree, a, 0, false⟩
  | left + 1 =>
    if m < least then ⟨s.close tree, a, left + 1, false⟩
    else
      let c := s.common
      let n := c + agreement g.b (pos + c) (m + c) stop
      let (a, done) := visit a m n
      if done then ⟨s.close tree, a, left + 1, true⟩
      else
        let (tree, s, next) := s.hang g tree m n (byteAt g.b (m + n) < byteAt g.b (pos + n)) floor
        match next with
        | none => ⟨s.close tree, a, left + 1, false⟩
        | some m => walk visit g pos least floor stop s m tree a left

/-- Put `pos` on top of the tree, starting from `m`. -/
@[inline] def enter {α : Type} (visit : α → Nat → Nat → α × Bool) (g : Ground) (pos least floor stop m : Nat) (tree : Table)
    (a : α) (left : Nat) : Walked α :=
  let at_ := 2 * (pos % g.ring)
  walk visit g pos least floor stop ⟨at_, at_ + 1, 0, 0⟩ m tree a left

/-- The same in the tree of a dictionary, which is only read. -/
@[specialize] def look {α : Type} (visit : α → Nat → Nat → α × Bool) (g : Ground) (d : Attached)
    (ring floor pos smaller larger m : Nat) (a : α) : Nat → α
  | 0 => a
  | left + 1 =>
    if m ≤ d.low then a
    else
      let at_ := 2 * (m % ring)
      let c := min smaller larger
      let n := c + agreement g.b (pos + c) (m + c) g.stop
      let (a, done) := visit a m n
      if done || m ≤ floor then a
      else if byteAt g.b (m + n) < byteAt g.b (pos + n) then
        look visit g d ring floor pos n larger (d.tables.chain.get (at_ + 1)) a left
      else look visit g d ring floor pos smaller n (d.tables.chain.get at_) a left

@[inline] def lookUp {α : Type} (visit : α → Nat → Nat → α × Bool) (g : Ground) (t : Tuning) (pos : Nat) (a : α)
    (left : Nat) : Option Attached → α
  | none => a
  | some d =>
    let ring := 2 ^ (d.tuning.chainLog - 1)
    let hd := Hasher.ofWidth (searchWidth t) d.tuning.hashLog 0
    let floor := if d.stop - d.low ≤ ring - 1 then d.low else d.stop - (ring - 1)
    look visit g d ring floor pos 0 0 (d.tables.hash.get (hd.hashAt g.b pos)) a left

/-- The end of the match that reaches farthest, after one of `n` bytes up to `stop`. -/
@[inline] def farther (longest n reach stop : Nat) : Nat := if longest < n && reach < stop then stop else reach

/-! ### Entering -/

/-- The longest match met, and the end of the one that reaches farthest. -/
@[inline] def meet (stop pos : Nat) (a : Nat × Nat) (m n : Nat) : (Nat × Nat) × Bool :=
  let (longest, reach) := a
  ((max longest n, farther longest n reach (m + n)), pos + n = stop)

/-- Positions to go forward: inside a long match not every position is entered. -/
def stride (pos longest reach : Nat) : Nat :=
  max (if 384 < longest then min 192 (longest - 384) else 0) (reach - (pos + 8))

def update (g : Ground) (h : Hasher) (tries windowLow target i : Nat) (hash tree : Table) : Nat → Table × Table
  | 0 => (hash, tree)
  | fuel + 1 =>
    if i < target then
      let k := h.hashAt g.b i
      let first := hash.get k
      let hash := hash.set k i
      let ⟨tree, (longest, reach), _, _⟩ :=
        enter (meet g.stop i) g i windowLow (i - (g.ring - 1)) g.stop first tree (8, i + 9) tries
      update g h tries windowLow target (i + stride i longest reach) hash tree fuel
    else (hash, tree)

/-! ### Searching -/

/-- Tables in use, with the first positions not yet entered into the trees and the table for three bytes. -/
structure Forest where
  hash : Table
  tree : Table
  hash3 : Table
  next : Nat
  next3 : Nat

/-- A match list and the tables after the search. -/
structure Harvest where
  forest : Forest
  found : Array Best

/-- What stays fixed while a block is searched. -/
structure Hunt where
  finder : Finder
  ground : Ground
  older : Older
  dict : Option Attached
  hasher : Hasher
  hasher3 : Hasher
  least : Nat
  enough : Nat
  tries : Nat

def reach3 : Nat := 2 ^ 18

def mostTold : Nat := 4096

@[inline] def Hunt.reaches (h : Hunt) (windowLow pos offset : Nat) : Bool :=
  let m := pos - offset
  let start := h.ground.start
  if offset = 0 || pos < offset then false
  else if start ≤ m then windowLow ≤ m
  else match h.older with
    | .nothing => false
    | .segment => windowLow ≤ m && m + 4 ≤ start
    | .dictionary => (match h.dict with | some d => d.low ≤ m | none => false) && m + 4 ≤ start

/-- The agreement of `pos` with what lies `offset` before it, if that is in reach and long enough. -/
@[inline] def repetition (h : Hunt) (windowLow pos offset : Nat) : Nat :=
  if h.reaches windowLow pos offset then
    let n := agreement h.ground.b pos (pos - offset) h.ground.stop
    if h.least ≤ n then n else 0
  else 0

/-- Try offsets, which have the codes from `code` on. The flag says that a match is taken at once. -/
def repetitions (h : Hunt) (windowLow pos code longest : Nat) (found : Array Best) :
    List Nat → Array Best × Nat × Bool
  | [] => (found, longest, false)
  | offset :: offsets =>
    let n := repetition h windowLow pos offset
    if longest < n then
      let found := found.push ⟨n, code⟩
      if h.enough < n || pos + n = h.ground.stop then (found, n, true)
      else repetitions h windowLow pos (code + 1) n found offsets
    else repetitions h windowLow pos (code + 1) longest found offsets

/-- Enter the positions from `i` up to `stop` into the table for three bytes. -/
def enter3 (h : Hasher) (b : ByteArray) (stop i : Nat) (table : Table) : Nat → Table
  | 0 => table
  | fuel + 1 => if i < stop then enter3 h b stop (i + 1) (table.set (h.hashAt b i) i) fuel else table

/-- Matches of a place, the length of the longest, and the end of the one that reaches farthest. -/
structure Catch where
  found : Array Best
  longest : Nat
  reach : Nat

/-- Take the position `m` if it is longer; a match that cannot be beaten ends the search. -/
@[inline] def Catch.meet (stop pos : Nat) (c : Catch) (m n : Nat) : Catch × Bool :=
  let ⟨found, longest, reach⟩ := c
  let longer := longest < n
  (⟨if longer then found.push ⟨n, pos - m + 3⟩ else found, max longest n, farther longest n reach (m + n)⟩,
    longer && (mostTold < n || pos + n == stop))

/-- The match of `pos` with the latest position of the same three bytes. Positions before `pos` are entered first. -/
@[inline] def Hunt.shortMatch (h : Hunt) (windowLow pos next3 : Nat) (hash3 : Table) : Table × Best :=
  let b := h.ground.b
  let hash3 := enter3 h.hasher3 b pos next3 hash3 (pos - next3)
  let m := hash3.get (h.hasher3.hashAt b pos)
  let n := if windowLow ≤ m && pos - m < reach3 then agreement b pos m h.ground.stop else 0
  (hash3, ⟨n, pos - m + 3⟩)

/-- Collect the matches of `pos` in the trees, and enter it. The answer has the next position to enter. -/
@[inline] def Hunt.searchTrees (h : Hunt) (windowLow pos longest : Nat) (hash tree : Table) (found : Array Best) :
    Table × Table × Array Best × Nat :=
  let g := h.ground
  let k := h.hasher.hashAt g.b pos
  let first := hash.get k
  let hash := hash.set k pos
  let ⟨tree, c, left, done⟩ := enter (Catch.meet g.stop pos) g pos windowLow (pos - (g.ring - 1)) g.stop first tree
    ⟨found, longest, pos + 9⟩ h.tries
  let c := lookUp (Catch.meet g.stop pos) g h.finder.tuning pos c (if done then 0 else left) h.dict
  (hash, tree, c.found, c.reach - 8)

/-- All matches of `pos`, repetitions first. Directly behind a match, one less than the first offset stands in for the
third. -/
def allMatches (h : Hunt) (forest : Forest) (pos : Nat) (reps : Reps) (behind : Bool) : Harvest :=
  let ⟨hash, tree, hash3, next, next3⟩ := forest
  if pos < next then ⟨⟨hash, tree, hash3, next, next3⟩, #[]⟩
  else
    let windowLow := h.finder.lowest pos
    let (hash, tree) := update h.ground h.hasher h.tries windowLow pos next hash tree (pos - next)
    let offsets := if behind then [reps.second, reps.third, reps.first - 1] else [reps.first, reps.second, reps.third]
    let (found, longest, atOnce) := repetitions h windowLow pos 1 (h.least - 1) #[] offsets
    if atOnce then ⟨⟨hash, tree, hash3, pos, next3⟩, found⟩
    else
      let short := h.least = 3 && longest < 3
      let (hash3, best) := if short then h.shortMatch windowLow pos next3 hash3 else (hash3, ⟨0, 0⟩)
      let next3 := if short then pos else next3
      let (found, longest) := if 3 ≤ best.length then (#[best], best.length) else (found, longest)
      if 3 ≤ best.length && (h.enough < best.length || pos + best.length = h.ground.stop) then
        ⟨⟨hash, tree, hash3, pos + 1, next3⟩, found⟩
      else
        let (hash, tree, found, next) := h.searchTrees windowLow pos longest hash tree found
        ⟨⟨hash, tree, hash3, next, next3⟩, found⟩

def hunt (f : Finder) (stop : Nat) : Hunt :=
  let t := f.tuning
  let older := f.older
  { finder := f
    ground := {
      b := f.content, ring := 2 ^ (t.chainLog - 1), start := f.start, low := f.low, window := 2 ^ t.windowLog, stop }
    older
    dict := if older = .dictionary then f.attached else none
    hasher := .ofWidth (searchWidth t) t.hashLog 0
    hasher3 := .ofWidth 3 f.hash3Log 0
    least := if t.minMatch = 3 then 3 else 4
    enough := min t.targetLength (mostTold - 1)
    tries := 2 ^ t.searchLog }

end ZstCodec.Match.Tree
