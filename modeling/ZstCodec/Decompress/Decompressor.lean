import ZstCodec.Decompress.Stream
import ZstCodec.Frame.Query

/-! # Decompressing at once

A whole frame is decoded by one call. The room is what the header says, or else what the caller allows. -/

namespace ZstCodec.Decompress

def roomLimit : Nat := 2 ^ 36

def checkRoom (n : Nat) : Except Failure Nat :=
  if 2 ^ 63 ≤ n then .error .overflow
  else if roomLimit ≤ n then .error .memory
  else .ok n

/-- What is done about input behind the frame. -/
inductive Extra where
  | allowed
  | refusedWhenFull
  | refused
  deriving DecidableEq, Repr

def Extra.refuses (filled : Bool) : Extra → Bool
  | .allowed => false
  | .refusedWhenFull => filled
  | .refused => true

/-- Decode the frame at the start of `data`, into the room that the header tells, or `most`. -/
def decompress (s : Stream) (data : ByteArray) (most : Option (Except Failure Nat)) (extra : Extra) :
    Stream × Except Failure ByteArray :=
  let run (room : Nat) (expected : Option Nat) : Stream × Except Failure ByteArray :=
    let (s, o) := s.run data 0 room
    (s, match o.result with
      | .error e => .error (.codec .decompressing e)
      | .ok hint =>
        let short := match expected with | none => none | some n => if o.out.size ≠ n then some n else none
        if hint ≠ 0 then .error .frameIncomplete
        else match short with
          | some n => .error (.contentShort n)
          | none =>
            if extra.refuses (o.out.size = room) && o.pos < data.size then .error (.extraData (data.size - o.pos))
            else .ok o.out)
  match Frame.contentSize data with
  | .error => (s, .error .contentSizeUndetermined)
  | .known 0 => (s, .ok .empty)
  | .known n => match checkRoom n with
    | .error e => (s, .error e)
    | .ok room => run room (some n)
  | .unknown => match most with
    | none => (s, .error .contentSizeMissing)
    | some (.error e) => (s, .error e)
    | some (.ok room) => run room none

/-! ### Chains of frames -/

def linkRoom (i : Nat) (frame : ByteArray) : Except Failure Nat :=
  match Frame.read .marked frame with
  | .error _ => .error (.linkInvalid i)
  | .ok (.more _) => .error (.linkShort i)
  | .ok (.skippable n) => .ok n
  | .ok (.frame h) => match h.contentSize with
    | none => .error (.linkSizeMissing i)
    | some n => .ok n

def decodeLink (s : Stream) (i : Nat) (frame : ByteArray) (room : Nat) (wrap : Fault → Failure) :
    Stream × Except Failure ByteArray :=
  let (s, o) := s.run frame 0 room
  (s, match o.result with
    | .error e => .error (wrap e)
    | .ok hint => if hint ≠ 0 then .error (.linkIncomplete i) else .ok o.out)

def fill (b : ByteArray) (room : Nat) : ByteArray := pushMany b 0 (room - b.size)

/-- Decode links one after the other, each by itself; the answer is the content of the last. -/
def decodeLinks (s : Stream) (i : Nat) (last : ByteArray) :
    List (Except Failure ByteArray) → Stream × Except Failure ByteArray
  | [] => (s, .ok last)
  | .error e :: _ => (s, .error e)
  | .ok frame :: rest =>
    match linkRoom i frame >>= checkRoom with
    | .error e => (s, .error e)
    | .ok room =>
      match decodeLink s i frame room (if i = 0 then .codec (.link 0) else fun _ => .wrongType) with
      | (s, .error e) => (s, .error e)
      | (s, .ok content) => decodeLinks s (i + 1) (fill content room) rest

/-- The frame takes the dictionary that was put before it, if its header can be read. -/
def Stream.spend (s : Stream) (frame : ByteArray) : Stream :=
  match Frame.read s.format frame with
  | .ok (.frame _) | .ok (.skippable _) => { s with dict := none }
  | _ => s

/-- Decode links from the second on. Two places for content are used in turn, which grow but do not shrink: `room` is the
size of the next, `other` of the other one. -/
def decodeLinked (s : Stream) (i : Nat) (last : ByteArray) (room other : Nat) :
    List (Except Failure ByteArray) → Stream × Except Failure ByteArray
  | [] => (s, .ok last)
  | .error e :: _ => (s, .error e)
  | .ok frame :: rest =>
    match linkRoom i frame >>= checkRoom with
    | .error e => (s, .error e)
    | .ok n =>
      let room := max room n
      let s := { s with dict := if last.size = 0 then none else some { content := last }, warm := false }
      match decodeLink s i frame room (.codec (.link i)) with
      | (s, .error e) => (s.spend frame, .error e)
      | (s, .ok content) => decodeLinked (s.spend frame) (i + 1) content other room rest

/-- Decode a chain, each link with the content of the one before as its dictionary. -/
def decodeChain (s : Stream) : List (Except Failure ByteArray) → Stream × Except Failure ByteArray
  | [] => (s, .error .emptyChain)
  | .error e :: _ => (s, .error e)
  | .ok frame :: rest =>
    match linkRoom 0 frame >>= checkRoom with
    | .error e => (s, .error e)
    | .ok room =>
      match decodeLink s 0 frame room (.codec (.link 0)) with
      | (s, .error e) => (s, .error e)
      | (s, .ok content) =>
        if rest.isEmpty then (s, .ok (fill content room))
        else decodeLinked s 1 content room room rest

end ZstCodec.Decompress
