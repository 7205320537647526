import ZstCodec.Bytes

/-! # Strategies and tuning

A compressor is tuned by seven numbers: how far back it looks (`windowLog`), how large its tables are (`hashLog`,
`chainLog`), how long it searches (`searchLog`), the shortest match worth taking (`minMatch`), how long a match ends the
search (`targetLength`), and the strategy. `Tuning.ofLevel` looks a level up in one of four tables, by the size of the
input (`none` if unknown), and fits the result to it: `Tuning.fit` shrinks window and tables that a short input can
never fill. -/

namespace ZstCodec

/-- Search strategies, from the fastest to the strongest. -/
inductive Strategy where
  | fast | dfast | greedy | lazy | lazy2 | btlazy2 | btopt | btultra | btultra2
  deriving DecidableEq, Repr, Inhabited

namespace Strategy

def rank : Strategy → Nat
  | fast => 1 | dfast => 2 | greedy => 3 | lazy => 4 | lazy2 => 5
  | btlazy2 => 6 | btopt => 7 | btultra => 8 | btultra2 => 9

def ofRank? : Nat → Option Strategy
  | 1 => some fast | 2 => some dfast | 3 => some greedy | 4 => some lazy | 5 => some lazy2
  | 6 => some btlazy2 | 7 => some btopt | 8 => some btultra | 9 => some btultra2
  | _ => none

theorem ofRank?_rank (s : Strategy) : ofRank? s.rank = some s := by cases s <;> rfl

def usesTree (s : Strategy) : Bool := 6 ≤ s.rank

def isOptimal (s : Strategy) : Bool := 7 ≤ s.rank

def isLazy : Strategy → Bool
  | greedy | lazy | lazy2 => true
  | _ => false

end Strategy

structure Tuning where
  windowLog : Nat
  chainLog : Nat
  hashLog : Nat
  searchLog : Nat
  minMatch : Nat
  targetLength : Nat
  strategy : Strategy
  deriving DecidableEq, Repr, Inhabited

namespace Tuning

/-! ### Bounds -/

def windowLogMin : Nat := 10
def windowLogMax : Nat := 31
def hashLogMin : Nat := 6
def hashLogMax : Nat := 30
def chainLogMin : Nat := 6
def chainLogMax : Nat := 30
def searchLogMin : Nat := 1
def searchLogMax : Nat := 30
def minMatchMin : Nat := 3
def minMatchMax : Nat := 7
def targetLengthMax : Nat := 131072

def WithinBounds (t : Tuning) : Prop :=
  (windowLogMin ≤ t.windowLog ∧ t.windowLog ≤ windowLogMax) ∧
  (chainLogMin ≤ t.chainLog ∧ t.chainLog ≤ chainLogMax) ∧
  (hashLogMin ≤ t.hashLog ∧ t.hashLog ≤ hashLogMax) ∧
  (searchLogMin ≤ t.searchLog ∧ t.searchLog ≤ searchLogMax) ∧
  (minMatchMin ≤ t.minMatch ∧ t.minMatch ≤ minMatchMax) ∧
  t.targetLength ≤ targetLengthMax

instance (t : Tuning) : Decidable t.WithinBounds := inferInstanceAs (Decidable (_ ∧ _))

/-! ### Levels -/

def maxLevel : Int := 22
def minLevel : Int := -131072
def defaultLevel : Int := 3

def row (windowLog chainLog hashLog searchLog minMatch targetLength : Nat) (strategy : Strategy) :
    Tuning :=
  { windowLog, chainLog, hashLog, searchLog, minMatch, targetLength, strategy }

/-- The level tables: above 256 KiB, up to 256, 128 and 16 KiB. Row zero serves the negative levels. -/
def levelTables : Array (Array Tuning) := #[
  #[
    row 19 12 13 1 6 1 .fast,
    row 19 13 14 1 7 0 .fast,
    row 20 15 16 1 6 0 .fast,
    row 21 16 17 1 5 0 .dfast,
    row 21 18 18 1 5 0 .dfast,
    row 21 18 19 3 5 2 .greedy,
    row 21 18 19 3 5 4 .lazy,
    row 21 19 20 4 5 8 .lazy,
    row 21 19 20 4 5 16 .lazy2,
    row 22 20 21 4 5 16 .lazy2,
    row 22 21 22 5 5 16 .lazy2,
    row 22 21 22 6 5 16 .lazy2,
    row 22 22 23 6 5 32 .lazy2,
    row 22 22 22 4 5 32 .btlazy2,
    row 22 22 23 5 5 32 .btlazy2,
    row 22 23 23 6 5 32 .btlazy2,
    row 22 22 22 5 5 48 .btopt,
    row 23 23 22 5 4 64 .btopt,
    row 23 23 22 6 3 64 .btultra,
    row 23 24 22 7 3 256 .btultra2,
    row 25 25 23 7 3 256 .btultra2,
    row 26 26 24 7 3 512 .btultra2,
    row 27 27 25 9 3 999 .btultra2],
  #[
    row 18 12 13 1 5 1 .fast,
    row 18 13 14 1 6 0 .fast,
    row 18 14 14 1 5 0 .dfast,
    row 18 16 16 1 4 0 .dfast,
    row 18 16 17 3 5 2 .greedy,
    row 18 17 18 5 5 2 .greedy,
    row 18 18 19 3 5 4 .lazy,
    row 18 18 19 4 4 4 .lazy,
    row 18 18 19 4 4 8 .lazy2,
    row 18 18 19 5 4 8 .lazy2,
    row 18 18 19 6 4 8 .lazy2,
    row 18 18 19 5 4 12 .btlazy2,
    row 18 19 19 7 4 12 .btlazy2,
    row 18 18 19 4 4 16 .btopt,
    row 18 18 19 4 3 32 .btopt,
    row 18 18 19 6 3 128 .btopt,
    row 18 19 19 6 3 128 .btultra,
    row 18 19 19 8 3 256 .btultra,
    row 18 19 19 6 3 128 .btultra2,
    row 18 19 19 8 3 256 .btultra2,
    row 18 19 19 10 3 512 .btultra2,
    row 18 19 19 12 3 512 .btultra2,
    row 18 19 19 13 3 999 .btultra2],
  #[
    row 17 12 12 1 5 1 .fast,
    row 17 12 13 1 6 0 .fast,
    row 17 13 15 1 5 0 .fast,
    row 17 15 16 2 5 0 .dfast,
    row 17 17 17 2 4 0 .dfast,
    row 17 16 17 3 4 2 .greedy,
    row 17 16 17 3 4 4 .lazy,
    row 17 16 17 3 4 8 .lazy2,
    row 17 16 17 4 4 8 .lazy2,
    row 17 16 17 5 4 8 .lazy2,
    row 17 16 17 6 4 8 .lazy2,
    row 17 17 17 5 4 8 .btlazy2,
    row 17 18 17 7 4 12 .btlazy2,
    row 17 18 17 3 4 12 .btopt,
    row 17 18 17 4 3 32 .btopt,
    row 17 18 17 6 3 256 .btopt,
    row 17 18 17 6 3 128 .btultra,
    row 17 18 17 8 3 256 .btultra,
    row 17 18 17 10 3 512 .btultra,
    row 17 18 17 5 3 256 .btultra2,
    row 17 18 17 7 3 512 .btultra2,
    row 17 18 17 9 3 512 .btultra2,
    row 17 18 17 11 3 999 .btultra2],
  #[
    row 14 12 13 1 5 1 .fast,
    row 14 14 15 1 5 0 .fast,
    row 14 14 15 1 4 0 .fast,
    row 14 14 15 2 4 0 .dfast,
    row 14 14 14 4 4 2 .greedy,
    row 14 14 14 3 4 4 .lazy,
    row 14 14 14 4 4 8 .lazy2,
    row 14 14 14 6 4 8 .lazy2,
    row 14 14 14 8 4 8 .lazy2,
    row 14 15 14 5 4 8 .btlazy2,
    row 14 15 14 9 4 8 .btlazy2,
    row 14 15 14 3 4 12 .btopt,
    row 14 15 14 4 3 24 .btopt,
    row 14 15 14 5 3 32 .btultra,
    row 14 15 15 6 3 64 .btultra,
    row 14 15 15 7 3 256 .btultra,
    row 14 15 15 5 3 48 .btultra2,
    row 14 15 15 6 3 128 .btultra2,
    row 14 15 15 7 3 256 .btultra2,
    row 14 15 15 8 3 256 .btultra2,
    row 14 15 15 8 3 512 .btultra2,
    row 14 15 15 9 3 512 .btultra2,
    row 14 15 15 10 3 999 .btultra2]]

/-- How a tuning is going to be used, which decides how a dictionary counts. -/
inductive Use where
  | plain
  /-- Compression next to an attached dictionary, whose size does not count. -/
  | attached
  | preparing
  deriving DecidableEq, Repr

def rowSize (size : Option Nat) (dict : Nat) (use : Use) : Option Nat :=
  let dict := if use = .attached then 0 else dict
  match size with
  | none => if dict = 0 then none else some (dict + 500 - 1)
  | some n => some ((n + dict) % 2 ^ 64)

def tableIndex : Option Nat → Nat
  | none => 0
  | some n => if n ≤ 16384 then 3 else if n ≤ 131072 then 2 else if n ≤ 262144 then 1 else 0

/-! ### Fitting to a size -/

def dictWindowLog (windowLog size dict : Nat) : Nat :=
  if dict = 0 then windowLog
  else if (dict + size) % 2 ^ 64 ≤ 2 ^ windowLog then windowLog
  else
    let both := (dict + 2 ^ windowLog) % 2 ^ 64
    if 2 ^ windowLogMax ≤ both then windowLogMax else Nat.log2 (both - 1) + 1

def cycleLog (chainLog : Nat) (s : Strategy) : Nat := if s.usesTree then chainLog - 1 else chainLog

/-- Shrink the window to what `size` bytes after `dict` bytes of dictionary can fill. -/
def fitWindow (t : Tuning) (size : Option Nat) (dict : Nat) : Tuning :=
  match size with
  | some n =>
    if n ≤ 2 ^ 30 ∧ dict ≤ 2 ^ 30 then
      let total := n + dict
      let srcLog := if total < 64 then hashLogMin else Nat.log2 (total - 1) + 1
      { t with windowLog := min t.windowLog srcLog }
    else t
  | none => t

/-- Shrink the tables to what the window and the dictionary together can fill. -/
def fitTables (t : Tuning) (size : Option Nat) (dict : Nat) : Tuning :=
  match size with
  | some n =>
    let dw := dictWindowLog t.windowLog n dict
    let cycle := cycleLog t.chainLog t.strategy
    { t with
      hashLog := min t.hashLog (dw + 1)
      chainLog := if dw < cycle then t.chainLog - (cycle - dw) else t.chainLog }
  | none => t

def fitTags (t : Tuning) (use : Use) : Tuning :=
  if use = .preparing ∧ (t.strategy = .fast ∨ t.strategy = .dfast) then
    { t with hashLog := min t.hashLog 24, chainLog := min t.chainLog 24 }
  else t

def fitRows (t : Tuning) : Tuning :=
  if t.strategy.isLazy then { t with hashLog := min t.hashLog (24 + min (max t.searchLog 4) 6) } else t

/-- Shrink window and tables to what `size` bytes after `dict` bytes of dictionary can fill. -/
def fit (t : Tuning) (size : Option Nat) (dict : Nat) (use : Use) : Tuning :=
  let size := if use = .preparing ∧ dict ≠ 0 ∧ size = none then some 513 else size
  let dict := if use = .attached then 0 else dict
  let t := (t.fitWindow size dict).fitTables size dict
  let t := { t with windowLog := max t.windowLog windowLogMin }
  (t.fitTags use).fitRows

def ofLevelFor (level : Int) (size : Option Nat) (dict : Nat) (use : Use) : Tuning :=
  let index := if level = 0 then 3 else if level < 0 then 0 else (min level maxLevel).toNat
  let table := levelTables[tableIndex (rowSize size dict use)]?.getD #[]
  let t := table[index]?.getD (row 19 12 13 1 6 1 .fast)
  let t := if level < 0 then { t with targetLength := (-(max level minLevel)).toNat } else t
  t.fit size dict use

def ofLevel (level : Int) (size dict : Nat) : Tuning :=
  ofLevelFor level (if size = 0 then none else some size) dict .plain

end Tuning

end ZstCodec
