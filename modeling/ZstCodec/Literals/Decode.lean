import ZstCodec.Huffman.Decode

/-! # Reading the literals section

Literals are stored, one byte repeated, or in a Huffman code, whose table stands in front of them or was used before.
Where they wait while the sequences run shows only on damaged blocks, in how far the sequences may write:

* **apart**: in room of their own;
* **behind**: in the output, behind the room of the largest block, which the sequences may not leave;
* **ahead**: all but the last 65536 in the output, so that the sequences approach them. -/

namespace ZstCodec.Literals

/-- The room a block is decoded into. -/
structure Room where
  streaming : Bool
  capacity : Nat
  blockMax : Nat

/-- Where the literals wait. -/
inductive Waiting where
  | apart
  | behind
  | ahead (count place : Nat)
  deriving DecidableEq, Repr

def slack : Nat := 32

def roomApart : Nat := 65536

def Room.waiting (r : Room) (n : Nat) : Waiting :=
  if !r.streaming && r.blockMax + slack + n + slack < r.capacity then .behind
  else if n ≤ roomApart then .apart
  else .ahead (n - roomApart) (min r.blockMax r.capacity - n + roomApart - slack)

/-- The literals, the place behind them, the Huffman table for later, and where the literals wait. -/
structure Section where
  bytes : ByteArray
  next : Nat
  table : Option Huffman.Decoder
  waiting : Waiting

def Room.check (r : Room) (n : Nat) : Except Fault Unit :=
  if r.blockMax < n then .error .corrupt
  else if min r.blockMax r.capacity < n then .error .outputTooSmall
  else .ok ()

def readCoded (b : ByteArray) (again : Bool) (room : Room) (table : Option Huffman.Decoder) :
    Except Fault Section := do
  if again ∧ table.isNone then throw .dictionaryCorrupted
  if b.size < 5 then throw .corrupt
  let form := natAt b 0 / 4 % 4
  let head := le32 b 0
  let (lead, n, coded) :=
    if form < 2 then (3, head / 16 % 1024, head / 2 ^ 14 % 1024)
    else if form = 2 then (4, head / 16 % 2 ^ 14, head / 2 ^ 18)
    else (5, head / 16 % 2 ^ 18, head / 2 ^ 22 + natAt b 4 * 1024)
  if room.blockMax < n then throw .corrupt
  if form ≠ 0 ∧ n < 6 then throw .literalsHeaderWrong
  if b.size < coded + lead then throw .corrupt
  if min room.blockMax room.capacity < n then throw .outputTooSmall
  let text := slice b lead (lead + coded)
  let result : Except Fault (ByteArray × Huffman.Decoder) := do
    let (t, text) ← match again, table with
      | true, some t => pure (t, text)
      | _, _ =>
        if form ≠ 0 ∧ (n = 0 ∨ coded = 0) then throw .corrupt
        let reading := if form = 0 then .singly else Huffman.Reading.choose n coded
        let (ws, used) ← Huffman.WeightTable.read text
        if text.size ≤ used then throw .corrupt
        pure (ws.decoder reading, slice text used text.size)
    let bytes ← if form = 0 then t.stream text n .empty else t.fourStreams text n
    return (bytes, t)
  match result with
  | .error _ => throw .corrupt
  | .ok (bytes, t) =>
    return { bytes, next := lead + coded, table := some t, waiting := room.waiting n }

/-- The size of literals that are stored or repeated, and the length of their header. -/
def plainSize (b : ByteArray) : Nat × Nat :=
  let form := natAt b 0 / 4 % 4
  if form = 1 then (le16 b 0 / 16, 2)
  else if form = 3 then (le24 b 0 / 16, 3)
  else (natAt b 0 / 8, 1)

def readStored (b : ByteArray) (room : Room) (table : Option Huffman.Decoder) : Except Fault Section := do
  let (n, lead) := plainSize b
  if lead = 3 ∧ b.size < 3 then throw .corrupt
  room.check n
  if b.size < lead + n then throw .corrupt
  let waiting := if b.size < lead + n + slack then room.waiting n else .apart
  return { bytes := slice b lead (lead + n), next := lead + n, table, waiting }

def readRepeated (b : ByteArray) (room : Room) (table : Option Huffman.Decoder) : Except Fault Section := do
  let (n, lead) := plainSize b
  if b.size < lead + 1 then throw .corrupt
  room.check n
  return { bytes := replicate n (byteAt b lead), next := lead + 1, table, waiting := room.waiting n }

def read (b : ByteArray) (room : Room) (table : Option Huffman.Decoder) : Except Fault Section :=
  if b.size < 2 then .error .corrupt
  else
    let kind := natAt b 0 % 4
    if kind = 0 then readStored b room table
    else if kind = 1 then readRepeated b room table
    else readCoded b (kind = 3) room table

end ZstCodec.Literals
