import ZstCodec.Compress.Jobs
import ZstCodec.Compress.Dictionary

/-! # Compressing a stream

A compressor takes input in pieces of any size and gives output into whatever room there is. Between frames it keeps its
settings and its dictionary.

Input is collected in a ring of one window and one block. A block is written when it is full, or at a flush or the end.
A whole remaining input that comes at once, into enough room, does not go through the ring. -/

namespace ZstCodec.Compress

/-- What a call asks for. -/
inductive Directive where
  | more
  | flush
  | finish
  deriving DecidableEq, Repr

def bound (n : Nat) : Nat := n + n / 256 + (if n < Block.maxSize then (Block.maxSize - n) / 2048 else 0)

/-- A frame under way. -/
structure Running where
  writer : Writer
  ring : Nat
  start : Nat := 0
  pending : ByteArray := .empty
  target : Nat
  out : ByteArray := .empty
  given : Nat := 0
  flushing : Bool := false
  ended : Bool := false

namespace Running

def pos (r : Running) : Nat := r.start + r.pending.size

def start_ (w : Writer) : Running :=
  let window := w.plan.windowSize
  let block := w.plan.blockSize
  { writer := w, ring := window + block
    target := block + (if w.plan.pledged = some block then 1 else 0) }

end Running

/-- The progress of a frame: input taken, input written, output. -/
structure Progress where
  ingested : Nat := 0
  consumed : Nat := 0
  produced : Nat := 0
  deriving DecidableEq, Repr

def Running.progress (r : Running) : Progress :=
  { ingested := r.writer.consumed + r.pending.size
    consumed := r.writer.consumed
    produced := r.writer.produced }

/-- A call in progress. -/
structure Call where
  input : ByteArray
  pos : Nat
  free : Nat
  directive : Directive
  out : ByteArray := .empty

/-- The frame after a step, `none` if it is complete. -/
structure Stepped where
  running : Running
  call : Call
  complete : Bool := false
  stop : Bool := false
  fault : Option Fault := none

namespace Running

def stepFlush (r : Running) (c : Call) : Stepped :=
  let n := min c.free (r.out.size - r.given)
  let c := { c with out := r.out.copySlice r.given c.out c.out.size n, free := c.free - n }
  let r := { r with given := r.given + n }
  if r.given < r.out.size then { running := r, call := c, stop := true }
  else
    let r := { r with out := .empty, given := 0, flushing := false }
    if r.ended then { running := r, call := c, complete := true, stop := true }
    else { running := r, call := c }

def stepWrite (r : Running) (c : Call) : Stepped :=
  let last := c.directive = .finish && c.pos = c.input.size
  let ⟨writer, ring, start, pending, target, out, given, flushing, ended⟩ := r
  let (writer, result) :=
    if last then writer.finish start pending else writer.add start pending false
  match result with
  | .error e =>
    { running := { writer, ring, start, pending, target, out, given, flushing, ended }, call := c
      stop := true, fault := some e }
  | .ok bytes =>
    let block := writer.plan.blockSize
    let pos := start + pending.size
    let (pos, target) := if ring < pos + block then (0, block) else (pos, pos + block)
    let r : Running :=
      { writer, ring, start := pos, pending := .empty, target, out := bytes, given := 0, flushing := true
        ended := last }
    r.stepFlush c

/-- Take input, and write it when the block is full or the directive asks for it. -/
def stepLoad (r : Running) (c : Call) : Stepped :=
  let rest := c.input.size - c.pos
  if c.directive = .finish && bound rest ≤ c.free && r.pos = 0 then
    let ⟨writer, ring, start, pending, target, out, given, flushing, ended⟩ := r
    let whole := slice c.input c.pos c.input.size
    let (writer, result) := writer.finishAtOnce whole
    let r : Running := { writer, ring, start, pending, target, out, given, flushing, ended }
    match result with
    | .error e => { running := r, call := c, stop := true, fault := some e }
    | .ok bytes =>
      { running := { r with ended := true }
        call := { c with pos := c.input.size, out := c.out ++ bytes, free := c.free - bytes.size }
        complete := true, stop := true }
  else
    let n := min rest (r.target - r.pos)
    let ⟨writer, ring, start, pending, target, out, given, flushing, ended⟩ := r
    let pending := c.input.copySlice c.pos pending pending.size n
    let r : Running := { writer, ring, start, pending, target, out, given, flushing, ended }
    let c := { c with pos := c.pos + n }
    if c.directive = .more && r.pos < r.target then { running := r, call := c, stop := true }
    else if c.directive = .flush && r.pending.size = 0 then { running := r, call := c, stop := true }
    else r.stepWrite c

def steps (r : Running) (c : Call) : Nat → Stepped
  | 0 => { running := r, call := c, stop := true }
  | fuel + 1 =>
    let s := if r.flushing then r.stepFlush c else r.stepLoad c
    if s.stop then s
    else
      let ⟨r, c, _, _, _⟩ := s
      r.steps c fuel

end Running

/-- The dictionary of a compressor. -/
inductive DictionaryChoice where
  | none
  | loaded (b : ByteArray) (type : ZstCodec.Dictionary.ContentType)
  | own (d : Dictionary)
  | prepared (d : Dictionary)

/-- A compressor. -/
structure Context where
  settings : Settings := {}
  dictionary : DictionaryChoice := .none
  pledged : Option Nat := none
  running : Option Running := none
  progress : Progress := {}

/-- How a frame is written with the given settings, apart from its dictionary. -/
def planOf (s : Settings) (t : Tuning) (rows : Bool) (switches : Tuning) (dictId : Nat)
    (pledged : Option Nat) : Plan :=
  { tuning := t
    rows
    splits := switches.splitsBlocks
    forceWindow := s.forceMaxWindow
    format := s.format
    contentSizeFlag := s.contentSizeFlag
    checksum := s.checksumFlag
    dictId := if s.dictIdFlag then dictId else 0
    pledged
    jobs := Jobs.of s switches pledged }

/-- Long-distance matching for a window, if it is switched on or pays for the tuning. -/
def longDistanceOf (s : Settings) (t : Tuning) (windowLog start : Nat) : Option Match.LongDistance :=
  if s.longDistance = .on || (s.longDistance = .auto && t.wantsLongDistance) then
    let hashLog := if s.ldmHashLog = 0 then max Tuning.hashLogMin (windowLog - 7) else s.ldmHashLog
    some (.fresh {
      hashLog
      bucketLog := min (if s.ldmBucketLog = 0 then 3 else s.ldmBucketLog) hashLog
      minMatch := if s.ldmMinMatch = 0 then 64 else s.ldmMinMatch
      rateLog := if s.ldmHashRateLog = 0 then windowLog - hashLog else s.ldmHashRateLog } windowLog start)
  else none

def startPlain (s : Settings) (pledged : Option Nat) : Writer :=
  let t := s.tuning s.level pledged 0 .plain
  let p := planOf s t t.usesRows t 0 pledged
  let f := Match.Finder.fresh t p.rows
  { plan := p, finder := f, longDistance := longDistanceOf s t t.windowLog f.content.size }

/-- The prices that a dictionary's codes promise, if all literals have one. -/
def promisedPrices (c : Block.Coding) : Match.Prices :=
  if c.literals.known = .complete then
    let t := c.sequences
    { literal := .ofBits c.literals.code.width 255 11
      litLength := .ofBits t.litLength.encoder.mostBits Sequence.maxLitLengthCode 10
      matchLength := .ofBits t.matchLength.encoder.mostBits Sequence.maxMatchLengthCode 10
      offset := .ofBits t.offset.encoder.mostBits Sequence.maxOffsetCode 10
      promised := true }
  else {}

/-- The writer of a frame that starts from a prepared dictionary; open switches are those of `own`. -/
def startBeside (s : Settings) (d : Dictionary) (own : Tuning) (attach : Bool) (windowLog : Nat) (pledged : Option Nat) :
    Writer :=
  let t := d.tuning attach pledged windowLog
  let p := planOf s t d.finder.rows own d.id pledged
  let f := if attach then d.attach t p.rows else d.copy t
  { plan := p
    finder := { f with prices := promisedPrices d.coding }
    longDistance := longDistanceOf s own t.windowLog f.content.size
    coding := d.coding
    reps := d.reps
    origin := f.content.size }

def startWith (s : Settings) (level : Int) (d : Dictionary) (pledged : Option Nat) : Writer :=
  let attach := d.attaches s.forceMaxWindow pledged
  let own := s.tuning level pledged d.size (if attach then .attached else .plain)
  startBeside s d own attach own.windowLog pledged

namespace Context

def reset (x : Context) : Context := { x with running := none, pledged := none }

def prepare (s : Settings) : DictionaryChoice → Except Fault DictionaryChoice
  | .loaded b type =>
    match Dictionary.prepare s s.level b type with
    | .error _ => .error .memory
    | .ok d => .ok (.own d)
  | d => .ok d

def start (s : Settings) (dictionary : DictionaryChoice) (pledged : Option Nat) : Running :=
  .start_ <| match dictionary with
    | .own d => startWith s s.level d pledged
    | .prepared d => startWith s 0 d pledged
    | _ => startPlain s pledged

/-- Feed `input` from `pos` on, with room for `free` bytes. A fault leaves input and output as they were. -/
def run (x : Context) (input : ByteArray) (pos free : Nat) (directive : Directive) : Context × Outcome :=
  let fail (x : Context) (e : Fault) : Context × Outcome :=
    (x, { pos, out := .empty, result := .error e })
  let ⟨settings, dictionary, pledged, running, progress⟩ := x
  match prepare settings dictionary with
  | .error e => fail { settings, dictionary, pledged, running, progress } e
  | .ok dictionary =>
    let pledged : Option Nat :=
      if running.isNone && directive == Directive.finish then some (input.size - pos) else pledged
    let r := match running with
      | some r => r
      | none => start settings dictionary pledged
    let ⟨r, c, complete, _, fault⟩ :=
      r.steps { input, pos, free, directive } (2 * (input.size - pos) + 8)
    let progress := r.progress
    match fault with
    | some e => fail { settings, dictionary, pledged, running := some r, progress } e
    | none =>
      let waiting := r.out.size - r.given
      let x := if complete then { settings, dictionary, pledged := none, running := none, progress }
        else { settings, dictionary, pledged, running := some r, progress }
      (x, { pos := c.pos, out := c.out, result := .ok waiting })

end Context

end ZstCodec.Compress
