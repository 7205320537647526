import ZstCodec.Histogram

/-! # Building a Huffman code

Symbols are ranked by frequency and merged into a tree, which is flattened to a limited depth. Only the depths matter
afterwards: codes are canonical.

* **Ranking** is by falling count. Counts below 165 keep symbol order; larger ones are collected by their highest bit
  and sorted within that group by a quicksort with the last element as pivot.
* **Depth.** `limitDepth` shortens codes that are too long and pays the debt by lengthening the cheapest shorter ones. -/

namespace ZstCodec.Huffman

/-- A ranked symbol. -/
structure Leaf where
  count : Nat
  symbol : Nat
  deriving Repr, Inhabited

abbrev Ranking := Array Leaf

namespace Ranking

def count (r : Ranking) (i : Nat) : Nat := (r.getD i default).count

def swap (r : Ranking) (i j : Nat) : Ranking :=
  let a := r.getD i default
  let b := r.getD j default
  (r.setIfInBounds i b).setIfInBounds j a

/-! ### Sorting a group -/

def sink (r : Ranking) (low : Nat) (key : Leaf) : Nat → Ranking
  | 0 => r.setIfInBounds 0 key
  | j + 1 =>
    if low ≤ j ∧ r.count j < key.count then
      sink (r.setIfInBounds (j + 1) (r.getD j default)) low key j
    else r.setIfInBounds (j + 1) key

def insertionSort (r : Ranking) (low : Nat) (n : Nat) : Ranking :=
  (List.range n).foldl (fun r i => r.sink low (r.getD (low + i + 1) default) (low + i + 1)) r

/-- Gather counts above the pivot at the front: `j` is the next place to look at, `i` the next to fill. -/
def gather (r : Ranking) (pivot i j : Nat) : Nat → Ranking × Nat
  | 0 => (r, i)
  | n + 1 =>
    if pivot < r.count j then gather (r.swap i j) pivot (i + 1) (j + 1) n
    else gather r pivot i (j + 1) n

def partition (r : Ranking) (low high : Nat) : Ranking × Nat :=
  let (r, i) := r.gather (r.count high) low low (high - low)
  (r.swap i high, i)

/-- Quicksort of the places `low … high - 1`. A fresh range of at most eight is sorted by insertion. -/
def quickSort (r : Ranking) (fresh : Bool) (low high : Nat) : Nat → Ranking
  | 0 => r
  | fuel + 1 =>
    if fresh && high ≤ low + 8 then r.insertionSort low (high - low - 1)
    else if low + 1 < high then
      let (r, i) := r.partition low (high - 1)
      if i - low < high - 1 - i then
        (r.quickSort true low i fuel).quickSort false (i + 1) high fuel
      else (r.quickSort true (i + 1) high fuel).quickSort false low i fuel
    else r

end Ranking

def group (count : Nat) : Nat := if count < 165 then count else highBit count + 158

def groups (counts : Array Nat) : Array Ranking :=
  (List.range counts.size).foldl
    (fun (t : Array Ranking) s =>
      let c := counts.getD s 0
      t.modify (group c) (·.push { count := c, symbol := s }))
    (Array.replicate 192 #[])

def rank (counts : Array Nat) : Ranking :=
  let t := groups counts
  (List.range 192).foldl
    (fun r i =>
      let g := 191 - i
      let m := t.getD g #[]
      r ++ (if 164 ≤ g then m.quickSort true 0 m.size (2 * m.size + 2) else m))
    #[]

/-! ### The tree -/

/-- Counts and parents of the merged nodes; node `i` is the `i`-th merger. -/
structure Forest where
  merged : Array Nat
  leafParent : Array Nat
  nodeParent : Array Nat

/-- Take the rarer of the next leaf, the last before `lo`, and the next merger; a tie goes to the merger. -/
def takeRarest (r : Ranking) (f : Forest) (parent lo node : Nat) : Forest × Nat × Nat × Nat :=
  let leafCount := if lo = 0 then 2 ^ 31 else r.count (lo - 1)
  let nodeCount := f.merged.getD node (2 ^ 30)
  if leafCount < nodeCount then
    ({ f with leafParent := f.leafParent.setIfInBounds (lo - 1) parent }, leafCount, lo - 1, node)
  else ({ f with nodeParent := f.nodeParent.push parent }, nodeCount, lo, node + 1)

def mergeAll (r : Ranking) (f : Forest) (lo node : Nat) : Nat → Forest
  | 0 => f
  | n + 1 =>
    let parent := f.merged.size
    let (f, a, lo, node) := takeRarest r f parent lo node
    let (f, b, lo, node) := takeRarest r f parent lo node
    mergeAll r { f with merged := f.merged.push (a + b) } lo node n

def nodeDepths (parents : Array Nat) (n : Nat) : Array Nat :=
  (List.range n).foldl
    (fun (d : Array Nat) i =>
      let k := n - 1 - i
      if k + 1 = n then d
      else d.setIfInBounds k (d.getD (parents.getD k 0) 0 + 1))
    (Array.replicate n 0)

/-- The depth of each ranked symbol that occurs; the ranking holds at least two such symbols. -/
def depths (r : Ranking) (used : Nat) : Array Nat :=
  let f : Forest :=
    { merged := #[r.count (used - 1) + r.count (used - 2)]
      leafParent := Array.replicate used 0, nodeParent := #[] }
  let f := mergeAll r f (used - 2) 0 (used - 2)
  let d := nodeDepths f.nodeParent f.merged.size
  f.leafParent.map fun p => d.getD p 0 + 1

/-! ### Limiting the depth -/

/-- Shorten the codes longer than `target`: the depths, the debt, and the first place before these codes. -/
def shorten (d : Array Nat) (largest target : Nat) (debt : Int) : Nat → Array Nat × Int × Nat
  | 0 => (d, debt, 0)
  | n + 1 =>
    if target < d.getD n 0 then
      let pay : Int := (2 ^ (largest - target) : Nat) - (2 ^ (largest - d.getD n 0) : Nat)
      shorten (d.setIfInBounds n target) largest target (debt + pay) n
    else (d, debt, n + 1)

/-- Number of places before the run of depth `target` that ends before place `n`. -/
def beforeRun (d : Array Nat) (target : Nat) : Nat → Nat
  | 0 => 0
  | n + 1 => if d.getD n 0 = target then beforeRun d target n else n + 1

/-- For each distance from `target`, the last place of that depth among the first `n`. -/
def lastPlaces (d : Array Nat) (target n : Nat) : Array (Option Nat) :=
  ((List.range n).foldl
    (fun (acc : Array (Option Nat) × Nat) i =>
      let p := n - 1 - i
      let b := d.getD p 0
      if acc.2 ≤ b then acc else (acc.1.setIfInBounds (target - b) (some p), b))
    (Array.replicate 14 none, target)).1

/-- Which depth to lengthen: distance `k` from the target pays `2 ^ (k - 1)`. Two symbols one step nearer are preferred
when they are rarer together. -/
def chooseDistance (r : Ranking) (last : Array (Option Nat)) : Nat → Nat
  | 0 => 1
  | 1 => 1
  | k + 2 =>
    match last.getD (k + 2) none, last.getD (k + 1) none with
    | none, _ => chooseDistance r last (k + 1)
    | some _, none => k + 2
    | some high, some low =>
      if r.count high ≤ 2 * r.count low then k + 2 else chooseDistance r last (k + 1)

def nextDistance (last : Array (Option Nat)) (k : Nat) : Nat → Nat
  | 0 => k
  | fuel + 1 =>
    if k ≤ 12 ∧ last.getD k none = none then nextDistance last (k + 1) fuel else k

def payDebt (r : Ranking) (target : Nat) (d : Array Nat) (last : Array (Option Nat)) (debt : Int) :
    Nat → Array Nat × Array (Option Nat) × Int
  | 0 => (d, last, debt)
  | fuel + 1 =>
    if debt ≤ 0 then (d, last, debt)
    else
      let k := chooseDistance r last (highBit debt.toNat + 1)
      let k := nextDistance last k 14
      let p := (last.getD k none).getD 0
      let d := d.setIfInBounds p (d.getD p 0 + 1)
      let last :=
        if last.getD (k - 1) none = none then last.setIfInBounds (k - 1) (some p) else last
      let last :=
        if p = 0 then last.setIfInBounds k none
        else if d.getD (p - 1) 0 = target - k then last.setIfInBounds k (some (p - 1))
        else last.setIfInBounds k none
      payDebt r target d last (debt - (2 ^ (k - 1) : Nat)) fuel

/-- Give back what was paid too much: codes at the target depth become shorter by one. -/
def refund (target : Nat) (d : Array Nat) (one : Option Nat) (n : Nat) (debt : Int) :
    Nat → Array Nat
  | 0 => d
  | fuel + 1 =>
    if 0 ≤ debt then d
    else match one with
      | none =>
        let n := beforeRun d target n
        refund target (d.setIfInBounds n (d.getD n 0 - 1)) (some n) n (debt + 1) fuel
      | some p =>
        refund target (d.setIfInBounds (p + 1) (d.getD (p + 1) 0 - 1)) (some (p + 1)) n (debt + 1)
          fuel

/-- Limit the depths to `target`; the second result is the largest depth that is left. -/
def limitDepth (r : Ranking) (d : Array Nat) (target : Nat) : Array Nat × Nat :=
  let largest := d.getD (d.size - 1) 0
  if largest ≤ target then (d, largest)
  else
    let (d, debt, n) := shorten d largest target 0 d.size
    let n := beforeRun d target n
    let debt := debt.fdiv (2 ^ (largest - target) : Nat)
    let last := lastPlaces d target n
    let (d, last, debt) := payDebt r target d last debt (2 ^ 12 + 256)
    (refund target d (last.getD 1 none) n debt 512, target)

/-! ### Canonical codes -/

/-- A code: for each symbol its width, zero if it has no code, and its canonical value. -/
structure Code where
  log : Nat
  widths : Array Nat
  values : Array Nat
  deriving Repr, Inhabited

namespace Code

def maxSymbol (c : Code) : Nat := c.widths.size - 1

@[inline] def width (c : Code) (s : Nat) : Nat := c.widths.getD s 0

def firstValues (log : Nat) (widths : Array Nat) : Array Nat :=
  let per := widths.foldl (fun (a : Array Nat) w => a.modify w (· + 1)) (Array.replicate 16 0)
  ((List.range log).foldl
    (fun (acc : Array Nat × Nat) i =>
      let w := log - i
      (acc.1.setIfInBounds w acc.2, (acc.2 + per.getD w 0) / 2))
    (Array.replicate 16 0, 0)).1

/-- The canonical code of given widths: values rise with the symbol within a width. -/
def ofWidths (log : Nat) (widths : Array Nat) : Code :=
  let (_, values) := widths.foldl
    (fun (acc : Array Nat × Array Nat) w =>
      let (next, values) := acc
      let v := next.getD w 0
      (next.setIfInBounds w (v + 1), values.push (if w = 0 then 0 else v)))
    (firstValues log widths, #[])
  { log, widths, values }

def estimate (c : Code) (h : Histogram) : Nat :=
  ((List.range h.counts.size).foldl (fun n s => n + c.width s * h.count s) 0) / 8

def covers (c : Code) (h : Histogram) : Bool :=
  h.maxSymbol ≤ c.maxSymbol &&
    (List.range h.counts.size).all fun s => h.count s = 0 || c.width s ≠ 0

end Code

/-- The code for a histogram with at least two symbols, no code longer than `limit`. -/
def build (h : Histogram) (limit : Nat) : Code :=
  let r := rank h.counts
  let used := h.distinct
  let (d, log) := limitDepth r (depths r used) limit
  let widths := (List.range used).foldl
    (fun (a : Array Nat) i => a.setIfInBounds (r.getD i default).symbol (d.getD i 0))
    (Array.replicate h.counts.size 0)
  Code.ofWidths log widths

end ZstCodec.Huffman
