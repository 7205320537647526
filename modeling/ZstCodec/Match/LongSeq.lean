/-! # Sequences found ahead

Long matches are found for many blocks at once. A cursor into the list of sequences marks what is already passed: whole
sequences, and bytes of the one at hand. -/

namespace ZstCodec.Match

/-- Literals and a match over a long distance. -/
structure LongSeq where
  literals : Nat
  length : Nat
  offset : Nat
  deriving Repr, Inhabited

/-- Sequences found ahead and how far they are used up. -/
structure Ahead where
  seqs : Array LongSeq := #[]
  pos : Nat := 0
  within : Nat := 0
  deriving Repr

namespace Ahead

@[inline] def done (a : Ahead) : Bool := a.seqs.size ≤ a.pos

/-- Pass over `bytes` bytes, counted from the start of the sequence at hand. -/
def passFrom (a : Ahead) (bytes : Nat) : Nat → Ahead
  | 0 => { a with within := 0 }
  | fuel + 1 =>
    if bytes = 0 || a.done then { a with within := 0 }
    else
      let s := a.seqs.getD a.pos default
      if s.literals + s.length ≤ bytes then
        passFrom { a with pos := a.pos + 1 } (bytes - (s.literals + s.length)) fuel
      else { a with within := bytes }

def pass (a : Ahead) (n : Nat) : Ahead := a.passFrom (a.within + n) (a.seqs.size - a.pos + 1)

end Ahead

end ZstCodec.Match
