import ZstCodec.Frame.Header
import ZstCodec.Failure

/-! # Asking about frames

What can be told of a frame from its first bytes: the size of its content, the size of its header, and its parameters. -/

namespace ZstCodec.Frame

/-- The content size of the frame at the start of some bytes. -/
inductive ContentSize where
  | error
  | unknown
  | known (n : Nat)
  deriving DecidableEq, Repr

/-- The content size that a header tells; the largest number but one is no size. -/
def contentSize (b : ByteArray) : ContentSize :=
  match read .marked b with
  | .ok (.frame h) => match h.contentSize with
    | none => .unknown
    | some n => if n = unknownSize - 1 then .error else .known n
  | .ok (.skippable _) => .known 0
  | _ => .error

def queryContentSize (b : ByteArray) : Except Failure Int :=
  match contentSize b with
  | .error => .error .contentSizeError
  | .unknown => .ok (-1)
  | .known n => .ok n

def queryHeaderSize (b : ByteArray) : Except Failure Nat :=
  match headerSize .marked b with
  | .error e => .error (.codec .readingHeaderSize e)
  | .ok n => .ok n

/-- What a header tells, in numbers. -/
structure Parameters where
  contentSize : Nat
  windowSize : Nat
  dictId : Nat
  hasChecksum : Bool
  deriving DecidableEq, Repr, Inhabited

def queryParameters (b : ByteArray) : Except Failure Parameters :=
  match read .marked b with
  | .error e => .error (.codec .readingParameters e)
  | .ok (.more n) => .error (.headerTooShort n)
  | .ok (.skippable n) => .ok { contentSize := n, windowSize := 0, dictId := 0, hasChecksum := false }
  | .ok (.frame h) => .ok {
      contentSize := h.contentSize.getD unknownSize
      windowSize := h.windowSize
      dictId := h.dictId
      hasChecksum := h.checksum }

end ZstCodec.Frame
