import ZstCodec.Bytes
import ZstCodec.Hash.Adler32

/-! # Storing in deflated form

At level zero the content is cut into stored blocks. Where the cuts fall depends on the room for output:

* **Straight.** A block is written to the output if it holds half the window or more, or, at a flush, all the input
  there is.
* **Through the window.** Else it is kept in a window of 64 KiB. When half of that is full, or at a flush, a block of it
  goes to a waiting buffer, which the output takes as it has room.

Output comes in rooms of growing sizes. -/

namespace ZstCodec.Deflate

inductive Flush where
  | no
  | sync
  | finish
  deriving DecidableEq, Repr

def halfWindow : Nat := 32768

def headerSize : Nat := 5

def maxStored : Nat := 65535

def maxWaiting : Nat := 65536 - headerSize

/-- Sizes of the rooms for output, in KiB; the last one is used again and again. -/
def roomSizes : List Nat := [32, 64, 256, 1024, 4096, 8192, 16384, 16384, 32768, 32768, 32768, 32768, 65536, 65536, 131072,
  131072, 262144]

def roomSize (i : Nat) : Nat := roomSizes.getD i 262144 * 1024

structure Storer where
  held : ByteArray := .empty
  start : Nat := 0
  waiting : ByteArray := .empty
  checksum : Adler32 := {}
  begun : Bool := false
  ended : Bool := false
  checked : Bool := false
  -- The call at hand
  input : ByteArray := .empty
  pos : Nat := 0
  room : Nat := 0
  out : ByteArray := .empty

namespace Storer

def left (s : Storer) : Nat := s.input.size - s.pos

def stop (s : Storer) : Nat := s.start + s.held.size

def header (size : Nat) (last : Bool) : ByteArray :=
  putLe (putLe (ByteArray.mk #[if last then 1 else 0]) size 2) (65535 - size) 2

def settle (s : Storer) : Storer :=
  let n := min s.waiting.size s.room
  { s with
    out := s.out ++ slice s.waiting 0 n
    waiting := slice s.waiting n s.waiting.size
    room := s.room - n }

def take (s : Storer) (n : Nat) : ByteArray × Storer :=
  let b := slice s.input s.pos (s.pos + n)
  (b, { s with pos := s.pos + n, checksum := s.checksum.append b })

/-- Write blocks straight to the output while that is allowed. The answer tells whether the last one is written. -/
def straight (s : Storer) (flush : Flush) : Nat → Bool × Storer
  | 0 => (false, s)
  | fuel + 1 =>
    if s.room < headerSize then (false, s)
    else
      let all := s.held.size + s.left
      let n := min (min maxStored all) (s.room - headerSize)
      if n < halfWindow && ((n = 0 && flush ≠ .finish) || flush = .no || n ≠ all) then (false, s)
      else
        let last := flush = .finish && n = all
        let fromWindow := min s.held.size n
        let old := slice s.held 0 fromWindow
        let s := { s with held := slice s.held fromWindow s.held.size, start := s.start + fromWindow }
        let (new, s) := s.take (n - fromWindow)
        let s := { s with out := s.out ++ header n last ++ old ++ new, room := s.room - headerSize - n }
        if last then (true, s) else straight s flush fuel

/-- Where the window stands after `used` bytes of input have gone past it. -/
def passBy (s : Storer) (used : Nat) : Storer :=
  if used = 0 then s
  else if halfWindow ≤ used then { s with start := halfWindow }
  else if 2 * halfWindow - s.start ≤ used then { s with start := s.start - halfWindow + used }
  else { s with start := s.start + used }

def fillWindow (s : Storer) : Storer :=
  let free := 2 * halfWindow - s.stop
  let s := if free < s.left && halfWindow ≤ s.start then { s with start := s.start - halfWindow } else s
  let (b, s) := s.take (min (2 * halfWindow - s.stop) s.left)
  { s with held := s.held ++ b }

/-- Put a block of the window into the waiting buffer, if it is worth it or if it has to be. -/
def writeWindow (s : Storer) (flush : Flush) : Storer :=
  let n := s.held.size
  if halfWindow ≤ n || ((n ≠ 0 || flush = .finish) && flush ≠ .no && s.left = 0 && n ≤ maxWaiting) then
    let size := min n maxWaiting
    let last := flush = .finish && s.left = 0 && size = n
    { s with
      waiting := s.waiting ++ header size last ++ slice s.held 0 size
      held := slice s.held size n
      start := s.start + size
      ended := last }.settle
  else s

/-- Store what there is of the input. The answer tells whether everything asked for is done. -/
def store (s : Storer) (flush : Flush) : Bool × Storer :=
  let before := s.pos
  let (last, s) := s.straight flush (s.input.size + s.held.size + 2)
  let s := s.passBy (s.pos - before)
  if last then (true, { s with ended := true })
  else if flush = .sync && s.left = 0 && s.held.size = 0 then (true, s)
  else (false, s.fillWindow.writeWindow flush)

def writeChecksum (s : Storer) : Storer :=
  if s.checked then s else { s with checked := true, waiting := s.waiting ++ s.checksum.bytes }.settle

def call (s : Storer) (flush : Flush) : Storer :=
  let s := if s.begun then s else { s with begun := true, waiting := ByteArray.mk #[0x78, 0x01] }
  let s := s.settle
  if s.room = 0 then s
  else if s.ended then s.writeChecksum
  else
    let (done, s) := s.store flush
    if ! done then s
    else match flush with
      | .no => s
      | .sync => { s with waiting := s.waiting ++ header 0 false }.settle
      | .finish => s.writeChecksum

def calls (s : Storer) (flush : Flush) (i : Nat) : Nat → Storer
  | 0 => s
  | fuel + 1 =>
    let s := s.call flush
    if s.room ≠ 0 then s else calls { s with room := roomSize i } flush (i + 1) fuel

def push (s : Storer) (input : ByteArray) (flush : Flush) : ByteArray × Storer :=
  let s := { s with input, pos := 0, room := roomSize 0, out := .empty }
  let s := s.calls flush 1 (input.size + s.held.size + s.waiting.size + 8)
  (s.out, { s with input := .empty, pos := 0, out := .empty })

end Storer

def stored (b : ByteArray) : ByteArray := (Storer.push {} b .finish).1

end ZstCodec.Deflate
