import ZstCodec.Huffman.Encode
import ZstCodec.Params.Tuning

/-! # Writing the literals section

Literals are coded if there are enough of them and it saves enough. Otherwise they are stored, or written as one byte
and a count. -/

namespace ZstCodec

def leastGain (n : Nat) (s : Strategy) : Nat := n / 2 ^ (if 8 ≤ s.rank then s.rank - 1 else 6) + 2

namespace Literals

/-- The Huffman code a reader knows. -/
structure Code where
  code : Huffman.Code
  known : Known

def Code.nothing : Code := { code := default, known := .nothing }

def plainHeader (kind n : Nat) : ByteArray :=
  if n ≤ 31 then putLe .empty (kind + 8 * n) 1
  else if n ≤ 4095 then putLe .empty (kind + 4 + 16 * n) 2
  else putLe .empty (kind + 12 + 16 * n) 3

def writeStored (b : ByteArray) : ByteArray := plainHeader 0 b.size ++ b

def writeRepeated (b : ByteArray) : ByteArray := (plainHeader 1 b.size).push (byteAt b 0)

def allEqual (b : ByteArray) : Bool := bytesEq b (replicate b.size (byteAt b 0))

def codedLead (n : Nat) : Nat := if n < 1024 then 3 else if n < 16384 then 4 else 5

/-- Header and text of coded literals; `again` tells that the code is the earlier one. -/
def writeCoded (n : Nat) (text : ByteArray) (again single : Bool) : ByteArray :=
  let kind := if again then 3 else 2
  let size := text.size
  let head :=
    if n < 1024 then putLe .empty (kind + (if single then 0 else 4) + 16 * n + 2 ^ 14 * size) 3
    else if n < 16384 then putLe .empty (kind + 8 + 16 * n + 2 ^ 18 * size) 4
    else putLe .empty (kind + 12 + 16 * n + 2 ^ 22 * size) 5
  head ++ text

def leastCoded (s : Strategy) (known : Known) : Nat :=
  if known = .complete then 6 else 8 * 2 ^ min (9 - s.rank) 3

/-- How literals are treated. -/
structure Policy where
  strategy : Strategy
  storeOnly : Bool
  suspicious : Bool

/-- Write the literals `b`, given the code known: the section, and the code known afterwards. -/
def write (b : ByteArray) (p : Policy) (old : Code) : ByteArray × Code :=
  let n := b.size
  if p.storeOnly || n < leastCoded p.strategy old.known then (writeStored b, old)
  else
    let single := n < 256 || (old.known = .complete && codedLead n = 3)
    let choice : Huffman.Choice :=
      { preferRepeat := p.strategy.rank < 4 && n ≤ 1024
        searchLimit := 8 ≤ p.strategy.rank
        suspicious := p.suspicious }
    let pays (size : Nat) : Bool := size + leastGain n p.strategy < n
    match Huffman.compress b single choice old.known old.code with
    | .refused => (writeStored b, old)
    | .constant => if pays 1 then (writeRepeated b, old) else (writeStored b, old)
    | .again text =>
      if !pays text.size then (writeStored b, old)
      else if text.size = 1 && allEqual b then (writeRepeated b, old)
      else (writeCoded n text true single, old)
    | .fresh code text =>
      if !pays text.size then (writeStored b, old)
      else (writeCoded n text false single, { code, known := .unchecked })

end Literals

end ZstCodec
