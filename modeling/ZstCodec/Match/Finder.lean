import ZstCodec.Params.Tuning
import ZstCodec.Sequence.Codes
import ZstCodec.Match.Table
import ZstCodec.Match.Hash
import ZstCodec.Match.Prices

/-! # Finding matches

All bytes the compressor may refer to lie in one byte string, the *content*, and a position is an index into it. The
first two places are never used, so zero is no position. The *segment* at hand starts at `start`; before it, from `low`
on, lies the *older segment*, a dictionary or an earlier piece of input.

A finder cuts a block into sequences. What all strategies share is collected here. -/

namespace ZstCodec.Match

def firstPosition : Nat := 2

/-- Bytes that a hash may look at; positions closer to the end of a block are not hashed. -/
def hashReach : Nat := 8

/-- Search steps grow by one every `2 ^ searchStrength` bytes without a match. -/
def searchStrength : Nat := 8

/-- Search tables. Which of them a strategy uses, and for what, is its own affair. -/
structure Tables where
  hash : Table := .none
  chain : Table := .none
  hash3 : Table := .none
  tags : Table := .none

/-- A dictionary whose tables are searched beside those of the input. -/
structure Attached where
  tuning : Tuning
  tables : Tables
  low : Nat
  stop : Nat
  rows : Bool

structure Finder where
  tuning : Tuning
  rows : Bool := false
  content : ByteArray
  low : Nat := firstPosition
  start : Nat := firstPosition
  next : Nat := firstPosition
  /-- End of a dictionary loaded into the content, zero if there is none (any more). -/
  dictEnd : Nat := 0
  tables : Tables := {}
  salt : UInt64 := 0
  hash3Log : Nat := 0
  /-- No entries are made while a lazy search runs over data without matches. -/
  skipping : Bool := false
  prices : Prices := {}
  attached : Option Attached := none
  deriving Inhabited

/-- What becomes of a block: sequences, the offsets used last, and the literals behind the last match. -/
structure Parsed where
  finder : Finder
  reps : Reps
  seqs : Array Seq
  rest : Nat

/-- Which older bytes a search looks at beside the segment. -/
inductive Older where
  | nothing
  | segment
  | dictionary
  deriving DecidableEq, Repr

def mixBits (v length : UInt64) : UInt64 :=
  let v := v ^^^ ((v >>> 49) ||| (v <<< 15)) ^^^ ((v >>> 24) ||| (v <<< 40))
  let v := v * 0x9FB21C651E98DF25
  let v := (v ^^^ ((v >>> 35) + length)) * 0x9FB21C651E98DF25
  v ^^^ (v >>> 28)

def sessionSalt : UInt64 := mixBits 0 8 ^^^ mixBits 0 4

namespace Finder

def freshTables (t : Tuning) (rows : Bool) (hash3Log : Nat) : Tables :=
  { hash := .zeros t.hashLog
    chain := if t.strategy = .fast || rows then .none else .zeros t.chainLog
    hash3 := if hash3Log = 0 then .none else .zeros hash3Log
    tags := if rows then .zeros t.hashLog else .none }

def emptyContent : ByteArray := replicate firstPosition 0

/-- A finder with empty tables. A dictionary that is prepared has no table for three bytes. -/
def fresh (t : Tuning) (rows : Bool) : Finder :=
  let hash3Log := if t.minMatch = 3 then min 17 t.windowLog else 0
  { tuning := t, rows, content := emptyContent, tables := freshTables t rows hash3Log, hash3Log
    salt := if rows then sessionSalt else 0 }

def older (f : Finder) : Older :=
  if f.low < f.start then .segment
  else if f.attached.isSome then .dictionary
  else .nothing

/-- The lowest position from `lowest` on that `pos` may refer to: a valid dictionary lifts the window. -/
@[inline] def within (f : Finder) (lowest pos : Nat) : Nat :=
  if f.dictEnd ≠ 0 then lowest
  else if lowest + 2 ^ f.tuning.windowLog < pos then pos - 2 ^ f.tuning.windowLog
  else lowest

def lowestInSegment (f : Finder) (pos : Nat) : Nat := f.within f.start pos

def lowest (f : Finder) (pos : Nat) : Nat := f.within f.low pos

end Finder

/-- An offset that reaches too far is set aside: the usable offset and the one set aside, zero for none. -/
@[inline] def setAside (offset : Nat) (tooFar : Bool) : Nat × Nat :=
  if tooFar then (0, offset) else (offset, 0)

/-- The two most recent offsets after a block: an offset not replaced is the one set aside. -/
def restore (reps : Reps) (rep1 rep2 saved1 saved2 : Nat) : Reps :=
  let saved2 := if saved1 ≠ 0 ∧ rep1 ≠ 0 then saved1 else saved2
  { reps with
    first := if rep1 ≠ 0 then rep1 else saved1
    second := if rep2 ≠ 0 then rep2 else saved2 }

end ZstCodec.Match
