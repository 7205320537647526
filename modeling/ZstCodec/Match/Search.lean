import ZstCodec.Match.Fast

/-! # Searching for the longest match

Slower strategies look at several candidates for a place and keep the longest. What they share is collected here. An
*offset code* is the offset plus three; the codes one to three stand for repeated offsets. -/

namespace ZstCodec.Match

/-- Tables that are being searched, and the first position that is not yet entered. -/
structure Entries where
  hash : Table
  chain : Table
  tags : Table
  next : Nat

/-- A match: its length and its offset code. -/
structure Best where
  length : Nat
  code : Nat

def noCode : Nat := 999999999

def Best.none : Best := ⟨3, noCode⟩

/-- Take the candidate `m` for `pos` if it is longer; then it agrees around the present end. -/
@[inline] def Best.consider (best : Best) (b : ByteArray) (pos m stop : Nat) : Best :=
  if same4 b (m + best.length - 3) (pos + best.length - 3) then
    let n := agreement b pos m stop
    if best.length < n then ⟨n, pos - m + 3⟩ else best
  else best

/-- Outcome of a search. -/
structure Found where
  entries : Entries
  best : Best

/-- A way to search: for a place, perhaps without entering what lies before it. -/
abbrev Searcher := Entries → Nat → Bool → Found

def searchWidth (t : Tuning) : Nat := min (max t.minMatch 4) 6

end ZstCodec.Match
