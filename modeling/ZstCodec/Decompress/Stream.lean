import ZstCodec.Decompress.Frame

/-! # Decoding a stream

Input and content come in pieces of any size. Between two calls the decoder holds:

* what it has loaded of a frame header, or of a block that came in pieces;
* the history: content passes through a ring, and when that starts over, only the round before stays in reach;
* content that the caller had no room for yet.

A call that fails leaves the decoder where the failure found it. When a frame is complete but content still waits, the
last byte of input is given back to the caller, who so knows to call again. -/

namespace ZstCodec.Decompress

/-- What the decoder does next. -/
inductive Stage where
  | start
  | header
  | read
  | load
  | flush
  deriving DecidableEq, Repr

/-- What the next bytes of a frame are. -/
inductive Part where
  | opening
  | blockHeader
  | block
  | lastBlock
  | checksum
  | skipped
  deriving DecidableEq, Repr

structure Stream where
  -- Settings
  format : Frame.Format := .marked
  maxWindow : Nat := 2 ^ 27 + 1
  own : Option Dictionary := none
  -- What stands before the next frame
  dict : Option Dictionary := none
  -- Progress
  stage : Stage := .start
  part : Part := .opening
  expected : Nat := 0
  block : Block.Header := default
  frame : Frame.Header := default
  -- Loaded input
  headerBytes : ByteArray := .empty
  loaded : ByteArray := .empty
  -- The ring of produced content: its size, and the range that waits
  inSize : Nat := 0
  outSize : Nat := 0
  outStart : Nat := 0
  outEnd : Nat := 0
  -- History
  history : ByteArray := .empty
  contentStart : Nat := 0
  low : Nat := 0
  round : Nat := 0
  ringEnd : Option Nat := none
  memory : Block.Memory := {}
  decoded : Nat := 0
  warm : Bool := false
  test : Block.EndTest := .after
  hostage : Bool := false
  idle : Nat := 0
  deriving Inhabited

namespace Stream

def restart (s : Stream) : Stream := { s with stage := .start, idle := 0 }

/-- Give up what is under way; the decoder's own dictionary is in place again. -/
def reset (s : Stream) : Stream := { s.restart with dict := s.own.or s.dict }

def maxIdle : Nat := 16

def begin (s : Stream) : Stream :=
  let dict := s.dict.getD .none
  { s with
    part := .opening
    expected := s.format.prefixSize
    history := dict.content
    contentStart := dict.content.size
    low := 0
    round := 0
    ringEnd := none
    memory := dict.memory
    decoded := 0
    test := if s.dict.isNone then s.test else if s.warm then .after else .ahead
    warm := s.dict.isSome }

/-- A new round of the ring starts where the output is not behind the last block. -/
def checkRound (s : Stream) (capacity : Nat) : Stream :=
  if 0 < capacity ∧ s.ringEnd ≠ some s.outStart then
    { s with
      low := s.round
      round := s.history.size
      ringEnd := some s.outStart
      warm := s.warm && s.ringEnd.isNone }
  else s

/-- Bytes that the next part takes of `available`: a stored block takes what there is. -/
def wanted (s : Stream) (available : Nat) : Nat :=
  if (s.part = .block ∨ s.part = .lastBlock) ∧ s.block.kind = .stored then
    max 1 (min available s.expected)
  else s.expected

def afterLastBlock (s : Stream) : Stream :=
  if s.frame.checksum then { s with expected := 4, part := .checksum }
  else { s with expected := 0, part := .opening }

def takeBlockHeader (s : Stream) (src : ByteArray) : Stream × Except Fault Nat :=
  match Block.Header.read src 0 with
  | .error e => (s, .error e)
  | .ok h =>
    if s.frame.blockMax < h.bodySize then (s, .error .corrupt)
    else
      let s := { s with expected := h.bodySize, block := h }
      if h.bodySize ≠ 0 then ({ s with part := if h.last then .lastBlock else .block }, .ok 0)
      else if h.last then (s.afterLastBlock, .ok 0)
      else ({ s with expected := Block.headerSize, part := .blockHeader }, .ok 0)

def runBlock (s : Stream) (capacity : Nat) (src : ByteArray) : Stream × Except Fault Nat :=
  match s.block.kind with
  | .stored =>
    if capacity < src.size then (s, .error .outputTooSmall)
    else
      let history := s.history
      let s := { s with history := .empty }
      ({ s with history := history ++ src, expected := s.expected - src.size }, .ok src.size)
  | .repeated =>
    let s := { s with expected := 0 }
    if capacity < s.block.size then (s, .error .outputTooSmall)
    else
      let history := s.history
      let s := { s with history := .empty }
      ({ s with history := pushMany history (byteAt src 0) s.block.size }, .ok s.block.size)
  | .compressed =>
    let test := s.test
    let s := { s with expected := 0, test := .after }
    let room : Literals.Room := { streaming := true, capacity, blockMax := s.frame.blockMax }
    let size := s.history.size
    match Block.decode src room test s.memory s.low s.history with
    | .error e => (s, .error e)
    | .ok (history, memory) => ({ s with history, memory }, .ok (history.size - size))

def takeBlock (s : Stream) (capacity : Nat) (src : ByteArray) : Stream × Except Fault Nat :=
  match s.runBlock capacity src with
  | (s, .error e) => (s, .error e)
  | (s, .ok n) =>
    if s.frame.blockMax < n then (s, .error .corrupt)
    else
      let s := { s with decoded := s.decoded + n, ringEnd := some (s.outStart + n) }
      if 0 < s.expected then (s, .ok n)
      else if s.part = .lastBlock then
        if s.frame.contentSize.isSome ∧ s.frame.contentSize ≠ some s.decoded then (s, .error .corrupt)
        else (s.afterLastBlock, .ok n)
      else ({ s with part := .blockHeader, expected := Block.headerSize }, .ok n)

/-- Take the next part of a frame into a ring with `capacity` bytes left. -/
def takePart (s : Stream) (capacity : Nat) (src : ByteArray) : Stream × Except Fault Nat :=
  let s := s.checkRound capacity
  match s.part with
  | .opening => (s, .error .generic)
  | .blockHeader => s.takeBlockHeader src
  | .block | .lastBlock => s.takeBlock capacity src
  | .checksum =>
    let sum := (XxHash64.range s.history s.contentStart s.history.size).toNat % 2 ^ 32
    if le32 src 0 ≠ sum then (s, .error .checksumMismatch)
    else ({ s with expected := 0, part := .opening }, .ok 0)
  | .skipped => ({ s with expected := 0, part := .opening }, .ok 0)

def advance (s : Stream) (src : ByteArray) : Stream × Except Fault Unit :=
  let skipping := s.part = .skipped
  let capacity := if skipping then 0 else s.outSize - s.outStart
  match s.takePart capacity src with
  | (s, .error e) => (s, .error e)
  | (s, .ok n) =>
    if n = 0 ∧ ¬ skipping then ({ s with stage := .read }, .ok ())
    else ({ s with outEnd := s.outStart + n, stage := .flush }, .ok ())

def neededRooms (h : Frame.Header) (windowSize : Nat) : Nat × Nat :=
  let block := min (min windowSize Block.maxSize) h.blockMax
  let ring := windowSize + 2 * block + 2 * Literals.slack
  (max h.blockMax 4, min (h.contentSize.getD Frame.unknownSize) ring)

def makeRoom (s : Stream) (inNeeded outNeeded : Nat) : Stream :=
  if s.inSize < inNeeded ∨ s.outSize < outNeeded then { s with inSize := inNeeded, outSize := outNeeded }
  else s

def startFrame (s : Stream) (opening : Frame.Opening) : Stream × Except Fault Unit :=
  let s := s.begin
  let frame : Frame.Header := match opening with
    | .frame h => h
    | .skippable n => { contentSize := some n, windowSize := 0, dictId := 0, checksum := false, size := 0 }
    | .more _ => default
  let s := { s with frame }
  let dictId := (s.dict.getD .none).id
  if frame.dictId ≠ 0 ∧ frame.dictId ≠ dictId then (s, .error .dictionaryMismatch)
  else
    let s := match opening with
      | .skippable n => { s with expected := n, part := .skipped }
      | _ => { s with expected := Block.headerSize, part := .blockHeader }
    let windowSize := max frame.windowSize (2 ^ Frame.windowLogMin)
    if s.maxWindow < windowSize then (s, .error .windowTooLarge)
    else
      let (inNeeded, outNeeded) := neededRooms frame windowSize
      ({ s.makeRoom inNeeded outNeeded with stage := .read }, .ok ())

/-- A call at work: the input and how far it is read, the output and how much of it is free. -/
structure Call where
  input : ByteArray
  start : Nat
  pos : Nat
  out : ByteArray
  free : Nat

/-- How a step of a call ends. -/
inductive Step where
  | again (s : Stream) (c : Call)
  | done (s : Stream) (c : Call)
  | hint (s : Stream) (c : Call) (n : Nat)
  | fail (s : Stream) (pos : Nat) (e : Fault)

/-- A frame whose content fits the output and whose bytes are all there is decoded at once. -/
def atOnce? (s : Stream) (c : Call) (opening : Frame.Opening) : Option Step :=
  match opening with
  | .frame { contentSize := some n, .. } =>
    if c.free < n then none
    else
      let input := slice c.input c.start c.input.size
      match frameSize s.format input with
      | .error _ => none
      | .ok size =>
        let dict := s.dict.getD .none
        let test := if s.dict.isSome && !s.warm then .ahead else Block.EndTest.after
        let s := { s with warm := s.dict.isSome }
        match decodeAll s.format (slice input 0 size) c.free dict test with
        | .error e => some (.fail s c.start e)
        | .ok content =>
          some (.done { s with expected := 0, stage := .start }
            { c with pos := c.start + size, out := c.out ++ content, free := c.free - content.size })
  | _ => none

def stepHeader (s : Stream) (c : Call) : Step :=
  match Frame.read s.format s.headerBytes with
  | .error e => .fail s c.start e
  | .ok (.more n) =>
    let toLoad := n - s.headerBytes.size
    let remaining := c.input.size - c.pos
    if remaining < toLoad then
      let s := { s with headerBytes := s.headerBytes ++ slice c.input c.pos c.input.size }
      let c := { c with pos := c.input.size }
      match Frame.read s.format s.headerBytes with
      | .error e => .fail s c.input.size e
      | .ok _ => .hint s c (max s.format.leastHeader n - s.headerBytes.size + Block.headerSize)
    else
      .again { s with headerBytes := s.headerBytes ++ slice c.input c.pos (c.pos + toLoad) }
        { c with pos := c.pos + toLoad }
  | .ok opening =>
    match s.atOnce? c opening with
    | some step => step
    | none => match s.startFrame opening with
      | (s, .error e) => .fail s c.start e
      | (s, .ok ()) => .again s c

def stepLoad (s : Stream) (c : Call) : Step :=
  let toLoad := s.expected - s.loaded.size
  let skipping := s.part = .skipped
  if ¬ skipping ∧ s.inSize - s.loaded.size < toLoad then .fail s c.start .corrupt
  else
    let n := min toLoad (c.input.size - c.pos)
    let s := { s with loaded := s.loaded ++ slice c.input c.pos (c.pos + n) }
    let c := { c with pos := c.pos + n }
    if n < toLoad then .done s c
    else
      let src := s.loaded
      let s := { s with loaded := .empty }
      match s.advance src with
      | (s, .error e) => .fail s c.start e
      | (s, .ok ()) => .again s c

def stepRead (s : Stream) (c : Call) : Step :=
  let available := c.input.size - c.pos
  let n := s.wanted available
  if n = 0 then .done { s with stage := .start } c
  else if n ≤ available then
    match s.advance (slice c.input c.pos (c.pos + n)) with
    | (s, .error e) => .fail s c.start e
    | (s, .ok ()) => .again s { c with pos := c.pos + n }
  else if available = 0 then .done s c
  else stepLoad { s with stage := .load } c

def stepFlush (s : Stream) (c : Call) : Step :=
  let waiting := s.outEnd - s.outStart
  let n := min c.free waiting
  let i := s.history.size - waiting
  let c := { c with out := c.out ++ slice s.history i (i + n), free := c.free - n }
  let s := { s with outStart := s.outStart + n }
  if n < waiting then .done s c
  else
    let s := { s with stage := .read }
    if s.outSize < s.frame.contentSize.getD Frame.unknownSize
        ∧ s.outSize < s.outStart + s.frame.blockMax then
      .again { s with outStart := 0, outEnd := 0 } c
    else .again s c

def step (s : Stream) (c : Call) : Step :=
  match s.stage with
  | .start =>
    stepHeader { s with
      stage := .header
      headerBytes := .empty
      loaded := .empty
      outStart := 0
      outEnd := 0
      hostage := false } c
  | .header => s.stepHeader c
  | .read => s.stepRead c
  | .load => s.stepLoad c
  | .flush => s.stepFlush c

def steps (s : Stream) (c : Call) : Nat → Step
  | 0 => .done s c
  | fuel + 1 => match s.step c with
    | .again s c => steps s c fuel
    | r => r

/-- The hint at the end of a call. A byte of input is given back where content waits. -/
def hintAfter (s : Stream) (c : Call) : Stream × Nat × Nat :=
  if s.expected = 0 then
    if s.outEnd = s.outStart then
      if s.hostage then
        if c.input.size ≤ c.pos then ({ s with stage := .read }, c.pos, 1)
        else (s, c.pos + 1, 0)
      else (s, c.pos, 0)
    else if s.hostage then (s, c.pos, 1)
    else ({ s with hostage := true }, c.pos - 1, 1)
  else
    let more := if s.part = .block then Block.headerSize else 0
    (s, c.pos, s.expected + more - s.loaded.size)

def checkProgress (s : Stream) (c : Call) : Stream × Option Fault :=
  if c.pos = c.start ∧ c.out.size = 0 then
    let s := { s with idle := s.idle + 1 }
    if maxIdle ≤ s.idle then
      if c.free = 0 then (s, some .noProgressOutputFull)
      else if c.pos = c.input.size then (s, some .noProgressInputEmpty)
      else (s, none)
    else (s, none)
  else ({ s with idle := 0 }, none)

/-- Decode `input` from `pos` on into `free` bytes; no bytes are expected next at the end of a frame. On a fault nothing counts as read, except for bytes of a header that
loading has shown to be none. -/
def run (s : Stream) (input : ByteArray) (pos free : Nat) : Stream × Outcome :=
  let c : Call := { input, start := pos, pos, out := .empty, free }
  match s.steps c (2 * (input.size - pos) + 16) with
  | .fail s pos e => (s, { pos, out := .empty, result := .error e })
  | .hint s c n => (s, { pos := c.pos, out := c.out, result := .ok n })
  | .done s c | .again s c =>
    match s.checkProgress c with
    | (s, some e) => (s, { pos := c.pos, out := c.out, result := .error e })
    | (s, none) =>
      let (s, pos, n) := s.hintAfter c
      (s, { pos, out := c.out, result := .ok n })

end Stream

end ZstCodec.Decompress
