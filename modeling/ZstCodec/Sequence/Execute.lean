import ZstCodec.Sequence.Decode

/-! # Carrying out sequences

Carrying out a match appends bytes to the history. The copied range may reach into the bytes being appended: then byte
`j` of the copy is byte `j % offset` of the last `offset` bytes. -/

namespace ZstCodec.Sequence

/-- Append `n` bytes of `history` from `i` on, those just appended included. -/
def copyBytes (history : ByteArray) (i : Nat) : Nat → ByteArray
  | 0 => history
  | n + 1 => copyBytes (history.push (byteAt history i)) (i + 1) n

def copyMatch (history : ByteArray) (offset n : Nat) : ByteArray :=
  copyBytes history (history.size - offset) n

@[inline] def takeOver (history literals : ByteArray) (i n : Nat) : ByteArray :=
  literals.copySlice i history history.size n

/-- Where the bounds of a block lie. -/
structure Bounds where
  low : Nat
  limit : Nat
  /-- How many literals wait in the room ahead, and where the first lies; sequences may not run into them. -/
  ahead : Option (Nat × Nat) := none

def Bounds.overruns (m : Bounds) (size used n : Nat) : Bool :=
  match m.ahead with
  | none => false
  | some (waiting, place) => used + n ≤ waiting && place + used < size && size < place + used + n

@[inline] def Copy.run (s : Copy) (m : Bounds) (literals : ByteArray) (history : ByteArray) (used : Nat) :
    Except Fault ByteArray :=
  let mid := history.size + s.literals
  if m.limit < mid + s.length then .error .outputTooSmall
  else if literals.size < used + s.literals then .error .corrupt
  else if m.overruns history.size used s.literals then .error .outputTooSmall
  else if s.offset = 0 ∨ mid < m.low + s.offset then .error .corrupt
  else .ok (copyMatch (takeOver history literals used s.literals) s.offset s.length)

/-- Carry out the matches from `i` on, `n` of them; the count of literals used comes along. -/
def runCopies (m : Bounds) (literals : ByteArray) (copies : Array Copy) (i : Nat) (history : ByteArray)
    (used : Nat) : Nat → Except Fault (ByteArray × Nat)
  | 0 => .ok (history, used)
  | n + 1 =>
    if h : i < copies.size then
      let s := copies[i]
      match s.run m literals history used with
      | .error e => .error e
      | .ok history => runCopies m literals copies (i + 1) history (used + s.literals) n
    else .ok (history, used)

def runRest (m : Bounds) (literals history : ByteArray) (used : Nat) : Except Fault ByteArray :=
  let n := literals.size - used
  if m.limit < history.size + n then .error .outputTooSmall
  else .ok (takeOver history literals used n)

end ZstCodec.Sequence
