import ZstCodec.Frame.Header
import ZstCodec.Decompress.Dictionary
import ZstCodec.Hash.XxHash64

/-! # Decoding whole frames

All of a frame is there, and its content goes to an output of known capacity. The history is the dictionary followed by
what the frame has produced. -/

namespace ZstCodec.Decompress

/-- Decode the block with header `h` and its body at `i` into `free` bytes of output. -/
def decodeBlock (b : ByteArray) (i : Nat) (h : Block.Header) (room : Literals.Room) (test : Block.EndTest)
    (memory : Block.Memory) (low : Nat) (history : ByteArray) :
    Except Fault (ByteArray × Block.Memory) :=
  match h.kind with
  | .stored =>
    if room.capacity < h.size then .error .outputTooSmall
    else .ok (history ++ slice b i (i + h.size), memory)
  | .repeated =>
    if room.capacity < h.size then .error .outputTooSmall
    else .ok (pushMany history (byteAt b i) h.size, memory)
  | .compressed => Block.decode (slice b i (i + h.size)) room test memory low history

/-- Decode the blocks from `i` on, into `limit` bytes of history: the history and the place behind the blocks. -/
def decodeBlocks (b : ByteArray) (blockMax limit : Nat) (test : Block.EndTest) (i : Nat)
    (memory : Block.Memory) (history : ByteArray) : Nat → Except Fault (ByteArray × Nat)
  | 0 => .error .sourceSizeWrong
  | fuel + 1 => do
    let h ← Block.Header.read b i
    let i := i + Block.headerSize
    if b.size < i + h.bodySize then throw .sourceSizeWrong
    let room : Literals.Room := { streaming := false, capacity := limit - history.size, blockMax }
    let (history, memory) ← decodeBlock b i h room test memory 0 history
    let i := i + h.bodySize
    -- only the first compressed block of a frame reads ahead
    let test := if h.kind = .compressed then .after else test
    if h.last then return (history, i) else decodeBlocks b blockMax limit test i memory history fuel

/-- Decode the frame at the start of `b` into `capacity` bytes: its content and its length. -/
def decodeFrame (format : Frame.Format) (b : ByteArray) (capacity : Nat) (dict : Dictionary)
    (test : Block.EndTest) : Except Fault (ByteArray × Nat) := do
  if b.size < format.leastHeader + Block.headerSize then throw .sourceSizeWrong
  let size ← Frame.headerSize format b
  if b.size < size + Block.headerSize then throw .sourceSizeWrong
  let h ← match ← Frame.read format (slice b 0 size) with
    | .frame h => pure h
    | .more _ => throw .sourceSizeWrong
    | .skippable _ => throw .sourceSizeWrong
  if h.dictId ≠ 0 ∧ h.dictId ≠ dict.id then throw .dictionaryMismatch
  let start := dict.content.size
  let (history, i) ← decodeBlocks b h.blockMax (start + capacity) test size dict.memory dict.content
    (b.size + 1)
  let content := slice history start history.size
  if let some n := h.contentSize then
    if content.size ≠ n then throw .corrupt
  if h.checksum then
    if b.size < i + 4 then throw .checksumMismatch
    if le32 b i ≠ contentChecksum content then throw .checksumMismatch
    return (content, i + 4)
  return (content, i)

def skippableSize (b : ByteArray) : Except Fault Nat :=
  if b.size < Frame.skippableHeaderSize then .error .sourceSizeWrong
  else
    let n := le32 b 4
    if 2 ^ 32 ≤ n + Frame.skippableHeaderSize then .error .unsupportedFrameParameter
    else if b.size < n + Frame.skippableHeaderSize then .error .sourceSizeWrong
    else .ok (n + Frame.skippableHeaderSize)

def decodeFrames (format : Frame.Format) (b : ByteArray) (capacity : Nat) (dict : Dictionary)
    (test : Block.EndTest) (i : Nat) (later : Bool) (out : ByteArray) : Nat → Except Fault ByteArray
  | 0 => .error .sourceSizeWrong
  | fuel + 1 => do
    let rest := slice b i b.size
    if rest.size < format.prefixSize then
      if rest.size = 0 then return out else throw .sourceSizeWrong
    if format = .marked ∧ Frame.isSkippableMark (le32 rest 0) then
      let n ← skippableSize rest
      decodeFrames format b capacity dict test (i + n) later out fuel
    else
      match decodeFrame format rest (capacity - out.size) dict test with
      | .error e => throw (if later && e == .unknownFrame then .sourceSizeWrong else e)
      | .ok (content, n) => decodeFrames format b capacity dict .after (i + n) true (out ++ content) fuel

def decodeAll (format : Frame.Format) (b : ByteArray) (capacity : Nat) (dict : Dictionary)
    (test : Block.EndTest) : Except Fault ByteArray :=
  decodeFrames format b capacity dict test 0 false .empty (b.size + 1)

/-! ### The length of a frame -/

def skipBlocks (b : ByteArray) (i : Nat) : Nat → Except Fault Nat
  | 0 => .error .sourceSizeWrong
  | fuel + 1 => do
    let h ← Block.Header.read b i
    let i := i + Block.headerSize + h.bodySize
    if b.size < i then throw .sourceSizeWrong
    if h.last then return i else skipBlocks b i fuel

def frameSize (format : Frame.Format) (b : ByteArray) : Except Fault Nat := do
  if format = .marked ∧ Frame.skippableHeaderSize ≤ b.size ∧ Frame.isSkippableMark (le32 b 0) then
    return ← skippableSize b
  match ← Frame.read format b with
  | .more _ => throw .sourceSizeWrong
  | .skippable _ => throw .sourceSizeWrong
  | .frame h =>
    let i ← skipBlocks b h.size (b.size + 1)
    if h.checksum then
      if b.size < i + 4 then throw .sourceSizeWrong
      return i + 4
    return i

end ZstCodec.Decompress
