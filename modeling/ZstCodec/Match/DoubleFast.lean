import ZstCodec.Match.Fast

/-! # The double-fast strategy

Two tables keep the last position of each hash: of eight bytes, and of a least match. At each place a repetition is
tested one byte ahead; then the long candidate; then the short one, to which a long match one byte ahead is preferred. -/

namespace ZstCodec.Match.DoubleFast

open Fast (hashWidth tagSize setTagged fillFree clearOf)

/-! ### Filling the tables from a dictionary -/

/-- Enter every third position from `i` on. -/
def fillFrom (hl hs : Hasher) (b : ByteArray) (stop i : Nat) (long short : Table) : Nat → Table × Table
  | 0 => (long, short)
  | fuel + 1 =>
    if i + 2 ≤ stop - hashReach then
      fillFrom hl hs b stop (i + 3) (long.set (hl.hashAt b i) i) (short.set (hs.hashAt b i) i) fuel
    else (long, short)

/-- Enter every third position from `i` on, and others whose long places are free. -/
def fillTagged (hl hs : Hasher) (b : ByteArray) (stop i : Nat) (long short : Table) : Nat → Table × Table
  | 0 => (long, short)
  | fuel + 1 =>
    if i + 2 ≤ stop - hashReach then
      let short := setTagged short (hs.hashAt b i) i
      let long := setTagged long (hl.hashAt b i) i
      fillTagged hl hs b stop (i + 3) (fillFree hl b (i + 2) (fillFree hl b (i + 1) long)) short fuel
    else (long, short)

/-! ### Searching -/

/-- What stays fixed while a block is searched. -/
structure Scan where
  b : ByteArray
  long : Hasher
  short : Hasher
  low : Nat
  start : Nat
  stop : Nat
  limit : Nat

structure Progress where
  long : Table
  short : Table
  pos : Nat
  anchor : Nat
  rep1 : Nat
  rep2 : Nat
  seqs : Array Seq

/-- Outcome of a search within a segment. -/
structure Hit where
  long : Table
  short : Table
  found : Bool
  repeated : Bool
  pos : Nat
  entered : Nat
  source : Nat
  known : Nat

/-- Walk until a match is found. `hl` is the long hash of `ip` and `idxl` its entry. -/
def search (s : Scan) (rep1 : Nat) (long short : Table) (ip ip1 hl idxl step nextStep : Nat) : Nat → Hit
  | 0 => ⟨long, short, false, false, 0, 0, 0, 0⟩
  | fuel + 1 =>
    let hs := s.short.hashAt s.b ip
    let idxs := short.get hs
    let long := long.set hl ip
    let short := short.set hs ip
    if rep1 > 0 && same4 s.b (ip + 1) (ip + 1 - rep1) then
      ⟨long, short, true, true, ip + 1, ip, ip + 1 - rep1, 4⟩
    else
      let hl1 := s.long.hashAt s.b ip1
      if s.low < idxl && same8 s.b idxl ip then
        ⟨if step < 4 then long.set hl1 ip1 else long, short, true, false, ip, ip, idxl, 8⟩
      else
        let idxl1 := long.get hl1
        if s.low < idxs && same4 s.b idxs ip then
          let long := if step < 4 then long.set hl1 ip1 else long
          if s.low < idxl1 && same8 s.b idxl1 ip1 then ⟨long, short, true, false, ip1, ip, idxl1, 8⟩
          else ⟨long, short, true, false, ip, ip, idxs, 4⟩
        else
          let grow := nextStep ≤ ip1
          let step := if grow then step + 1 else step
          let nextStep := if grow then nextStep + 2 ^ searchStrength else nextStep
          let ip := ip1
          let ip1 := ip1 + step
          if ip1 ≤ s.limit then search s rep1 long short ip ip1 hl1 idxl1 step nextStep fuel
          else ⟨long, short, false, false, 0, 0, 0, 0⟩

@[inline] def searchFrom (s : Scan) (rep1 : Nat) (long short : Table) (ip : Nat) : Hit :=
  if s.limit < ip + 1 then ⟨long, short, false, false, 0, 0, 0, 0⟩
  else
    let hl := s.long.hashAt s.b ip
    search s rep1 long short ip (ip + 1) hl (long.get hl) 1 (ip + 2 ^ searchStrength) (s.stop - ip)

/-- Right behind a match the second last offset may repeat, from sources that are `allowed`. -/
def repeats (s : Scan) (allowed : Nat → Nat → Bool) (long short : Table) (pos rep1 rep2 : Nat)
    (seqs : Array Seq) : Nat → Progress
  | 0 => ⟨long, short, pos, pos, rep1, rep2, seqs⟩
  | fuel + 1 =>
    if pos ≤ s.limit && rep2 > 0 && allowed pos rep2 && same4 s.b pos (pos - rep2) then
      let length := agreement s.b (pos + 4) (pos + 4 - rep2) s.stop + 4
      let short := short.set (s.short.hashAt s.b pos) pos
      let long := long.set (s.long.hashAt s.b pos) pos
      repeats s allowed long short (pos + length) rep2 rep1 (seqs.push ⟨0, 1, length⟩) fuel
    else ⟨long, short, pos, pos, rep1, rep2, seqs⟩

@[inline] def afterMatch (s : Scan) (allowed : Nat → Nat → Bool) (long short : Table)
    (entered pos rep1 rep2 : Nat) (seqs : Array Seq) : Progress :=
  if pos ≤ s.limit then
    let i := entered + 2
    let long := long.set (s.long.hashAt s.b i) i
    let long := long.set (s.long.hashAt s.b (pos - 2)) (pos - 2)
    let short := short.set (s.short.hashAt s.b i) i
    let short := short.set (s.short.hashAt s.b (pos - 1)) (pos - 1)
    repeats s allowed long short pos rep1 rep2 seqs (s.stop - pos)
  else ⟨long, short, pos, pos, rep1, rep2, seqs⟩

@[inline] def always (_ _ : Nat) : Bool := true

def parseFrom (s : Scan) (p : Progress) : Nat → Progress
  | 0 => p
  | fuel + 1 =>
    let ⟨long, short, pos, anchor, rep1, rep2, seqs⟩ := p
    let ⟨long, short, found, repeated, hpos, entered, source, known⟩ := searchFrom s rep1 long short pos
    if !found then ⟨long, short, pos, anchor, rep1, rep2, seqs⟩
    else
      let offset := hpos - source
      let back := if repeated then 0 else backward s.b hpos anchor source s.low
      let length := known + agreement s.b (hpos + known) (source + known) s.stop + back
      let pos := hpos - back
      let seqs := seqs.push ⟨pos - anchor, if repeated then 1 else offset + 3, length⟩
      let rep2 := if repeated then rep2 else rep1
      let rep1 := if repeated then rep1 else offset
      parseFrom s (afterMatch s always long short entered (pos + length) rep1 rep2 seqs) fuel

def scanOf (f : Finder) (low start stop : Nat) : Scan :=
  { b := f.content, long := .ofWidth 8 f.tuning.hashLog 0,
    short := .ofWidth (hashWidth f.tuning) f.tuning.chainLog 0, low, start, stop, limit := stop - hashReach }

def finish (f : Finder) (p : Progress) (reps : Reps) (j : Nat) : Parsed :=
  { finder := { f with tables := { f.tables with hash := p.long, chain := p.short } }
    reps
    seqs := p.seqs
    rest := j - p.anchor }

def parseSegment (f : Finder) (reps : Reps) (i j : Nat) : Parsed :=
  let low := f.lowestInSegment j
  let pos := if i = low then i + 1 else i
  let most := pos - f.lowestInSegment pos
  let (rep2, saved2) := setAside reps.second (most < reps.second)
  let (rep1, saved1) := setAside reps.first (most < reps.first)
  let s := scanOf f low low j
  let long := f.tables.hash
  let short := f.tables.chain
  let f := { f with tables := {} }
  let p := parseFrom s ⟨long, short, pos, i, rep1, rep2, #[]⟩ (j - i)
  finish f p (restore reps p.rep1 p.rep2 saved1 saved2) j

/-! ### With older bytes -/

/-- Tables of an attached dictionary. -/
structure DictScan where
  long : Table
  short : Table
  longHash : Hasher
  shortHash : Hasher
  low : Nat

/-- A candidate: where it is, zero for none, and how far down it may be extended backwards. -/
structure Candidate where
  source : Nat
  floor : Nat

/-- The candidate for `pos` from the entry `idx`, or else from the dictionary's table, if it agrees. -/
@[inline] def candidate (s : Scan) (agrees : Nat → Nat → Bool) (table : DictScan → Table)
    (hash : DictScan → Hasher) (d : Option DictScan) (idx pos : Nat) : Candidate :=
  match d with
  | none =>
    if s.low < idx && agrees idx pos then ⟨idx, if idx < s.start then s.low else s.start⟩ else ⟨0, 0⟩
  | some d =>
    if s.start < idx then if agrees idx pos then ⟨idx, s.start⟩ else ⟨0, 0⟩
    else
      let k := (hash d).hashAt s.b pos
      let entry := (table d).get (k / tagSize)
      if entry % tagSize == k % tagSize && d.low < entry / tagSize && agrees (entry / tagSize) pos then
        ⟨entry / tagSize, d.low⟩
      else ⟨0, 0⟩

@[inline] def longCandidate (s : Scan) (d : Option DictScan) (idx pos : Nat) : Candidate :=
  candidate s (same8 s.b) (·.long) (·.longHash) d idx pos

@[inline] def shortCandidate (s : Scan) (d : Option DictScan) (idx pos : Nat) : Candidate :=
  candidate s (same4 s.b) (·.short) (·.shortHash) d idx pos

/-- A repetition by `offset` at `pos` is in reach and does not start in the last older bytes. -/
@[inline] def allowed (s : Scan) (pos offset : Nat) : Bool :=
  s.low + offset ≤ pos && clearOf s.start (pos - offset)

def parseOlderFrom (s : Scan) (d : Option DictScan) (p : Progress) : Nat → Progress
  | 0 => p
  | fuel + 1 =>
    let ⟨long, short, pos, anchor, rep1, rep2, seqs⟩ := p
    if s.limit ≤ pos then ⟨long, short, pos, anchor, rep1, rep2, seqs⟩
    else
      let hl := s.long.hashAt s.b pos
      let hs := s.short.hashAt s.b pos
      let idxl := long.get hl
      let idxs := short.get hs
      let long := long.set hl pos
      let short := short.set hs pos
      if allowed s (pos + 1) rep1 && same4 s.b (pos + 1) (pos + 1 - rep1) then
        let length := 4 + agreement s.b (pos + 5) (pos + 5 - rep1) s.stop
        let seqs := seqs.push ⟨pos + 1 - anchor, 1, length⟩
        parseOlderFrom s d
          (afterMatch s (allowed s) long short pos (pos + 1 + length) rep1 rep2 seqs) fuel
      else
        let c := longCandidate s d idxl pos
        let c4 := if c.source = 0 then shortCandidate s d idxs pos else ⟨0, 0⟩
        if c.source = 0 && c4.source = 0 then
          parseOlderFrom s d
            ⟨long, short, pos + (pos - anchor) / 2 ^ searchStrength + 1, anchor, rep1, rep2, seqs⟩ fuel
        else
          let (long, hpos, c, known) :=
            if c.source ≠ 0 then (long, pos, c, 8)
            else
              let hl3 := s.long.hashAt s.b (pos + 1)
              let c3 := longCandidate s d (long.get hl3) (pos + 1)
              let long := long.set hl3 (pos + 1)
              if c3.source ≠ 0 then (long, pos + 1, c3, 8) else (long, pos, c4, 4)
          let offset := hpos - c.source
          let back := backward s.b hpos anchor c.source c.floor
          let length := known + agreement s.b (hpos + known) (c.source + known) s.stop + back
          let mpos := hpos - back
          let seqs := seqs.push ⟨mpos - anchor, offset + 3, length⟩
          parseOlderFrom s d
            (afterMatch s (allowed s) long short pos (mpos + length) offset rep1 seqs) fuel

def parseOlder (f : Finder) (reps : Reps) (i j : Nat) : Parsed :=
  let low := f.lowest j
  let start := max f.start low
  if start = low then parseSegment f reps i j
  else
    let s := scanOf f low start j
    let long := f.tables.hash
    let short := f.tables.chain
    let f := { f with tables := {} }
    let p := parseOlderFrom s none ⟨long, short, i, i, reps.first, reps.second, #[]⟩ (j - i)
    finish f p { reps with first := p.rep1, second := p.rep2 } j

def parseDict (f : Finder) (dict : Attached) (reps : Reps) (i j : Nat) : Parsed :=
  let start := f.lowestInSegment j
  let s := scanOf f dict.low start j
  let d : DictScan :=
    { long := dict.tables.hash
      short := dict.tables.chain
      longHash := .ofWidth 8 (dict.tuning.hashLog + 8) 0
      shortHash := .ofWidth (hashWidth f.tuning) (dict.tuning.chainLog + 8) 0
      low := dict.low }
  let pos := if i = start ∧ dict.stop = dict.low then i + 1 else i
  let long := f.tables.hash
  let short := f.tables.chain
  let f := { f with tables := {} }
  let p := parseOlderFrom s (some d) ⟨long, short, pos, i, reps.first, reps.second, #[]⟩ (j - i)
  finish f p { reps with first := p.rep1, second := p.rep2 } j

def parse (f : Finder) (reps : Reps) (i j : Nat) : Parsed :=
  match f.older, f.attached with
  | .segment, _ => parseOlder f reps i j
  | .dictionary, some d => parseDict f d reps i j
  | _, _ => parseSegment f reps i j

end ZstCodec.Match.DoubleFast
