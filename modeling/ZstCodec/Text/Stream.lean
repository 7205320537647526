import ZstCodec.Text.Encoding
import ZstCodec.Text.Newline

/-! # Text over a stream of bytes

A text stream decodes what it reads from a byte stream and encodes what it writes to one, in chunks. It hands out all
there is, or a line. -/

namespace ZstCodec.Text

structure TextStream where
  encoding : Encoding
  name : String
  errors : String
  newline : Newline
  reads : Bool
  writes : Bool
  held : ByteArray := .empty
  heldReturn : Bool := false
  chars : List Char := []
  pending : ByteArray := .empty

namespace TextStream

def chunkSize : Nat := 8192

def mode (t : TextStream) : ErrorMode := .ofName t.errors

/-! ### Reading -/

def decode (t : TextStream) (b : ByteArray) (final : Bool) : Except Failure (List Char × TextStream) := do
  let (cs, held) ← t.encoding.decode t.mode final (t.held ++ b)
  let (cs, heldReturn) := t.newline.readPiece t.heldReturn final cs
  return (cs, { t with held, heldReturn })

def takeAll (t : TextStream) (b : ByteArray) : Except Failure (String × TextStream) := do
  let (cs, t) ← t.decode b true
  return (String.ofList (t.chars ++ cs), { t with chars := [] })

/-- Take in a chunk behind the characters at hand. The answer tells whether there is more. -/
def takeChunk (t : TextStream) (b : ByteArray) : Except Failure (Bool × TextStream) := do
  let (cs, t) ← t.decode b (b.size = 0)
  return (b.size ≠ 0 || ! cs.isEmpty, { t with chars := t.chars ++ cs })

def takeLine? (t : TextStream) : Option (String × TextStream) :=
  (t.newline.splitLine [] t.chars).map fun (line, rest) => (String.ofList line.reverse, { t with chars := rest })

def takeRest (t : TextStream) : String × TextStream := (String.ofList t.chars, { t with chars := [] })

/-! ### Writing -/

def encode (t : TextStream) (s : String) : Except Failure ByteArray := t.encoding.encode t.mode (t.newline.write s.toList)

/-- What is collected has to be passed on before more bytes are collected. -/
def mustPassFirst (t : TextStream) (b : ByteArray) : Bool := t.pending.size ≠ 0 && chunkSize < t.pending.size + b.size

def collect (t : TextStream) (b : ByteArray) : TextStream := { t with pending := t.pending ++ b }

def isFull (t : TextStream) : Bool := chunkSize ≤ t.pending.size

end TextStream

end ZstCodec.Text
