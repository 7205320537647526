/-! # Ends of lines

Three marks end a line: a feed, a return, and a return with a feed.

* **Universal** reading takes all three and may translate them to a feed. A return at the end of a piece waits, since a
  feed may follow.
* **Particular** reading takes one mark only.
* **Writing** puts a mark in the place of every feed. -/

namespace ZstCodec.Text

/-- How lines end. -/
inductive Newline where
  | translated
  | universal
  | feed
  | return_
  | both
  deriving DecidableEq, Repr

namespace Newline

def ofText? : Option String → Option Newline
  | none => some .translated
  | some "" => some .universal
  | some "\n" => some .feed
  | some "\r" => some .return_
  | some "\r\n" => some .both
  | some _ => none

def waits : Newline → Bool
  | translated | universal => true
  | _ => false

def feeds : List Char → List Char
  | [] => []
  | '\r' :: '\n' :: cs => '\n' :: feeds cs
  | c :: cs => (if c = '\r' then '\n' else c) :: feeds cs

/-- Read a piece; `held` tells that a return waits from before. The answer tells whether one waits now. -/
def readPiece (m : Newline) (held final : Bool) (cs : List Char) : List Char × Bool :=
  if ! m.waits then (cs, false)
  else
    let (cs, held) := if held && (final || ! cs.isEmpty) then ('\r' :: cs, false) else (cs, held)
    let (cs, held) := if ! final && cs.getLast? = some '\r' then (cs.dropLast, true) else (cs, held)
    (if m = translated then feeds cs else cs, held)

/-- Split off a line with its mark, if there is one; it is given last character first. -/
def splitLine (m : Newline) (line : List Char) : List Char → Option (List Char × List Char)
  | [] => none
  | '\r' :: '\n' :: cs =>
    match m with
    | universal | both => some ('\n' :: '\r' :: line, cs)
    | return_ => some ('\r' :: line, '\n' :: cs)
    | translated | feed => some ('\n' :: '\r' :: line, cs)
  | c :: cs =>
    if c = '\n' && m ≠ return_ && m ≠ both || c = '\r' && (m = universal || m = return_) then some (c :: line, cs)
    else splitLine m (c :: line) cs

def write (m : Newline) (cs : List Char) : List Char :=
  match m with
  | return_ => cs.map fun c => if c = '\n' then '\r' else c
  | both => cs.flatMap fun c => if c = '\n' then ['\r', '\n'] else [c]
  | _ => cs

end Newline

end ZstCodec.Text
