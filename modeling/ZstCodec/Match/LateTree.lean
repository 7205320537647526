import ZstCodec.Match.Tree

/-! # Trees sorted late

Positions with the same hash are kept in a search tree, with the roots of what is smaller and what is larger. A position
is first entered *unsorted*: then it has the position of the same hash before it, and a mark. Only when a search comes
upon unsorted positions are they sorted in, the oldest first, and not too many of them. -/

namespace ZstCodec.Match.LateTree

open ZstCodec.Match.Tree (Ground farther)

def unsorted : Nat := 1

def enter (h : Hasher) (b : ByteArray) (ring stop i : Nat) (hash tree : Table) : Nat → Table × Table
  | 0 => (hash, tree)
  | fuel + 1 =>
    if i < stop then
      let k := h.hashAt b i
      let at_ := 2 * (i % ring)
      let tree := (tree.set at_ (hash.get k)).set (at_ + 1) unsorted
      enter h b ring stop (i + 1) (hash.set k i) tree fuel
    else (hash, tree)

def sort (g : Ground) (pos floor : Nat) (tree : Table) (left : Nat) : Table :=
  let windowLow := if g.low + g.window < pos then pos - g.window else g.low
  let stop := if g.start ≤ pos then g.stop else g.start
  (Tree.enter (fun _ _ n => ((), pos + n = stop)) g pos (windowLow + 1) floor stop (tree.get (2 * (pos % g.ring))) tree ()
    left).tree

/-- Follow unsorted positions from `m` on and turn their links around; `before` was met last. The answer has the oldest of
them and how many more were allowed. -/
def collect (g : Ground) (limit m before : Nat) (tree : Table) : Nat → Table × Nat × Nat
  | 0 => (tree, before, 0)
  | left + 1 =>
    let at_ := 2 * (m % g.ring)
    if limit < m && tree.get (at_ + 1) == unsorted then
      if left = 0 then ((tree.set at_ 0).set (at_ + 1) 0, before, 1)
      else
        let next := tree.get at_
        collect g limit next m (tree.set (at_ + 1) before) left
    else (tree, before, left + 1)

def sortAll (g : Ground) (limit m left : Nat) (tree : Table) : Nat → Table
  | 0 => tree
  | fuel + 1 =>
    if m = 0 then tree
    else
      let next := tree.get (2 * (m % g.ring) + 1)
      sortAll g limit next (left + 1) (sort g m limit tree left) fuel

def settle (g : Ground) (limit m : Nat) (tree : Table) (tries : Nat) : Table :=
  let (tree, oldest, left) := collect g limit m 0 tree tries
  sortAll g limit oldest left tree (tries + 1)

@[inline] def worthwhile (n best offset code : Nat) : Bool :=
  ((highBit (offset + 1) : Int) - highBit code) < 4 * ((n : Int) - best)

/-- Take the position `m` if it is longer and worth its offset. -/
@[inline] def meet (stop pos extra : Nat) (a : Best × Nat) (m n : Nat) : (Best × Nat) × Bool :=
  let (best, reach) := a
  let longer := best.length < n
  ((if longer && worthwhile n best.length (pos - m) (best.code + extra) then ⟨n, pos - m + 3⟩ else best,
    farther best.length n reach (m + n)), longer && pos + n == stop)

/-- Search the tree, and then that of a dictionary. A place inside a match that reached far is passed over. -/
def search (f : Finder) (stop : Nat) (dict : Option Attached) : Searcher :=
  let t := f.tuning
  let h := Hasher.ofWidth (searchWidth t) t.hashLog 0
  let ring := 2 ^ (t.chainLog - 1)
  let b := f.content
  let g : Ground := { b, ring, start := f.start, low := f.low, window := 2 ^ t.windowLog, stop }
  fun e pos _ =>
    let ⟨hash, tree, tags, next⟩ := e
    if pos < next then ⟨⟨hash, tree, tags, next⟩, ⟨0, noCode⟩⟩
    else
      let (hash, tree) := enter h b ring pos next hash tree (pos - next)
      let k := h.hashAt b pos
      let first := hash.get k
      let windowLow := f.lowest pos
      let floor := pos - (ring - 1)
      let limit := max floor windowLow
      let tries := 2 ^ t.searchLog
      let tree := settle g limit first tree tries
      let hash := hash.set k pos
      let ⟨tree, (best, reach), left, done⟩ :=
        Tree.enter (meet stop pos 0) g pos (windowLow + 1) floor stop first tree (⟨0, noCode⟩, pos + 9) tries
      let (best, _) := Tree.lookUp (meet stop pos 1) g t pos (best, reach) (if done then 0 else left) dict
      ⟨⟨hash, tree, tags, reach - 8⟩, best⟩

end ZstCodec.Match.LateTree
