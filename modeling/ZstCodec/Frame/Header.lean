import ZstCodec.Bytes
import ZstCodec.Fault
import ZstCodec.Block.Header

/-! # Frame headers

A frame opens with a mark of four bytes (none in the *unmarked* format) and a descriptor byte, which tells the fields
behind it: window size, dictionary identifier and content size. A *single segment*, whose content fits its window, has
no window field. *Skippable* frames, with marks of their own and a length, may stand between frames.

`Header.read` and `Header.write` are inverse to each other up to the freedom of choosing wider fields than needed. -/

namespace ZstCodec.Frame

/-- Whether frames carry the mark. -/
inductive Format where
  | marked
  | unmarked
  deriving DecidableEq, Repr

def mark : Nat := 0xFD2FB528

def skippableMark : Nat := 0x184D2A50

def skippableHeaderSize : Nat := 8

def windowLogMin : Nat := 10
def windowLogMax : Nat := 31

/-- A number that is no size: the content size of a header that does not tell it. -/
def unknownSize : Nat := 2 ^ 64 - 1

namespace Format

def prefixSize : Format → Nat
  | marked => 5
  | unmarked => 1

def leastHeader : Format → Nat
  | marked => 6
  | unmarked => 2

end Format

def isSkippableMark (v : Nat) : Bool := v / 16 == skippableMark / 16

/-- What a header says. -/
structure Header where
  contentSize : Option Nat
  windowSize : Nat
  dictId : Nat
  checksum : Bool
  size : Nat
  deriving DecidableEq, Repr, Inhabited

def Header.blockMax (h : Header) : Nat := min h.windowSize Block.maxSize

/-- What stands at the start of some bytes. -/
inductive Opening where
  | more (n : Nat)
  | frame (h : Header)
  | skippable (contentSize : Nat)
  deriving DecidableEq, Repr

/-! ### Reading -/

def dictIdWidth (code : Nat) : Nat := if code = 3 then 4 else code

def contentWidth (code : Nat) : Nat := if code = 0 then 0 else 2 ^ code

def headerSizeOf (format : Format) (descriptor : Nat) : Nat :=
  let single := descriptor / 32 % 2
  let code := descriptor / 64
  format.prefixSize + (1 - single) + dictIdWidth (descriptor % 4) + contentWidth code
    + (if single = 1 ∧ code = 0 then 1 else 0)

def headerSize (format : Format) (b : ByteArray) : Except Fault Nat :=
  if b.size < format.prefixSize then .error .sourceSizeWrong
  else .ok (headerSizeOf format (natAt b (format.prefixSize - 1)))

def fieldAt (b : ByteArray) (i : Nat) : Nat → Nat
  | 0 => 0
  | n + 1 => natAt b i + 256 * fieldAt b (i + 1) n

def readFields (format : Format) (b : ByteArray) (size : Nat) : Except Fault Header := do
  let descriptor := natAt b (format.prefixSize - 1)
  let single := descriptor / 32 % 2 = 1
  let code := descriptor / 64
  if descriptor / 8 % 2 = 1 then throw .unsupportedFrameParameter
  let i := format.prefixSize
  let w := natAt b i
  let windowLog := w / 8 + windowLogMin
  if ¬ single ∧ windowLogMax < windowLog then throw .windowTooLarge
  let i := if single then i else i + 1
  let idWidth := dictIdWidth (descriptor % 4)
  let dictId := fieldAt b i idWidth
  let i := i + idWidth
  let contentSize : Option Nat :=
    if code = 0 then if single then some (natAt b i) else none
    else if code = 1 then some (le16 b i + 256)
    else
      let v := fieldAt b i (contentWidth code)
      if v = unknownSize then none else some v
  let windowSize :=
    if single then contentSize.getD unknownSize else 2 ^ windowLog + 2 ^ windowLog / 8 * (w % 8)
  return { contentSize, windowSize, dictId, checksum := descriptor / 4 % 2 = 1, size }

def mayBecomeMark (b : ByteArray) : Bool :=
  let filled (m : Nat) : Nat := le32 (b ++ slice (putLe .empty m 4) b.size 4) 0
  filled mark == mark || isSkippableMark (filled skippableMark)

def read (format : Format) (b : ByteArray) : Except Fault Opening :=
  if b.size < format.prefixSize then
    if 0 < b.size ∧ format = .marked ∧ ! mayBecomeMark b then .error .unknownFrame
    else .ok (.more format.prefixSize)
  else if format = .marked ∧ le32 b 0 ≠ mark then
    if isSkippableMark (le32 b 0) then
      if b.size < skippableHeaderSize then .ok (.more skippableHeaderSize)
      else .ok (.skippable (le32 b 4))
    else .error .unknownFrame
  else
    let size := headerSizeOf format (natAt b (format.prefixSize - 1))
    if b.size < size then .ok (.more size)
    else (readFields format b size).map .frame

/-! ### Writing -/

/-- What a header is to say. -/
structure Description where
  format : Format
  windowLog : Nat
  contentSize : Option Nat
  dictId : Nat
  checksum : Bool

namespace Description

def singleSegment (d : Description) : Bool :=
  match d.contentSize with
  | none => false
  | some n => n ≤ 2 ^ d.windowLog

def dictIdCode (d : Description) : Nat :=
  if d.dictId = 0 then 0 else if d.dictId < 256 then 1 else if d.dictId < 65536 then 2 else 3

def contentCode (d : Description) : Nat :=
  match d.contentSize with
  | none => 0
  | some n => if n < 256 then 0 else if n < 65792 then 1 else if n < 0xFFFFFFFF then 2 else 3

def descriptor (d : Description) : Nat :=
  d.dictIdCode + (if d.checksum then 4 else 0) + (if d.singleSegment then 32 else 0) + 64 * d.contentCode

def write (d : Description) : ByteArray :=
  let out := if d.format = .marked then putLe .empty mark 4 else .empty
  let out := out.push d.descriptor.toUInt8
  let out := if d.singleSegment then out else out.push (8 * (d.windowLog - windowLogMin)).toUInt8
  let out := putLe out d.dictId (dictIdWidth d.dictIdCode)
  match d.contentSize with
  | none => out
  | some n =>
    if d.contentCode = 0 then if d.singleSegment then out.push n.toUInt8 else out
    else if d.contentCode = 1 then putLe out (n - 256) 2
    else putLe out n (contentWidth d.contentCode)

end Description

end ZstCodec.Frame
