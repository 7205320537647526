import ZstCodec.Bytes
import ZstCodec.Failure

/-! # Buffers cut into segments

A buffer is a byte string together with segments of it, which may overlap and leave gaps. A collection is a list of
buffers; its segments are those of its buffers, one after the other. -/

namespace ZstCodec.Segments

/-- A part of a buffer. -/
structure Segment where
  offset : Nat
  length : Nat
  deriving DecidableEq, Repr

def Segment.stop (s : Segment) : Nat := (s.offset + s.length) % 2 ^ 64

def totalOf (lengths : List Nat) : Nat := lengths.foldr (· + ·) 0

structure Buffer where
  data : ByteArray
  segments : List Segment

/-- A segment by its offset and its bytes. -/
structure Part where
  offset : Nat
  bytes : ByteArray

def segmentSize : Nat := 16

def readSegments (b : ByteArray) (i : Nat) : Nat → List Segment
  | 0 => []
  | n + 1 => { offset := le64 b i, length := le64 b (i + 8) } :: readSegments b (i + segmentSize) n

def writeSegments (segments : List Segment) : ByteArray :=
  segments.foldl (fun out s => putLe (putLe out s.offset 8) s.length 8) .empty

namespace Buffer

def ofWritten (data segments : ByteArray) : Except Failure Buffer :=
  if segments.size % segmentSize ≠ 0 then .error (.segmentsSize segmentSize)
  else
    let list := readSegments segments 0 (segments.size / segmentSize)
    if list.all (·.stop ≤ data.size) then .ok { data, segments := list } else .error .segmentOutside

def count (b : Buffer) : Nat := b.segments.length

def part (b : Buffer) (s : Segment) : Part := { offset := s.offset, bytes := slice b.data s.offset (s.offset + s.length) }

def parts (b : Buffer) : List Part := b.segments.map b.part

def lengthLimit : Nat := 2 ^ 63

def partAt (b : Buffer) (i : Nat) : Except Failure Part :=
  match b.segments[i]? with
  | some s => if s.length < lengthLimit then .ok (b.part s) else .error (.itemTooLarge i)
  | none => .error (.indexTooLarge b.count)

def total (b : Buffer) : Nat := totalOf (b.segments.map (·.length))

end Buffer

/-- Buffers, each with at least one segment and one byte. -/
structure Collection where
  buffers : List Buffer

namespace Collection

def ofBuffers (bs : List Buffer) : Except Failure Collection :=
  if bs.isEmpty then .error .noArguments
  else if bs.any fun b => b.segments.isEmpty || b.data.size = 0 then .error .emptyBuffer
  else .ok { buffers := bs }

def parts (c : Collection) : List Part := c.buffers.flatMap Buffer.parts

def count (c : Collection) : Nat := totalOf (c.buffers.map Buffer.count)

def total (c : Collection) : Nat := totalOf (c.buffers.map Buffer.total)

def partFrom (n : Nat) (i : Nat) : List Buffer → Except Failure Part
  | [] => .error (.indexTooLarge n)
  | b :: bs => if i < b.count then b.partAt i else partFrom n (i - b.count) bs

def partAt (c : Collection) (i : Nat) : Except Failure Part := partFrom c.count i c.buffers

end Collection

/-- The place that is meant among `n`; negative places count from the end. -/
def placeOf (n : Nat) (i : Int) : Except Failure Nat :=
  let i := if i < 0 then i + n else i
  if i < 0 then .error .indexNegative else .ok i.toNat

end ZstCodec.Segments
