import ZstCodec.Match.Finder

/-! # The fast strategy

One table keeps the last position of each hash. The search walks forward in steps that grow, looks up two places at a
time, and takes the first match: a repetition of the last offset, or the position in the table.

* **With an older segment** a repetition may not start in its last three bytes.
* **With a dictionary** its own table is looked up too. Its entries carry eight more bits of the hash, a tag, which
  tells most wrong candidates. -/

namespace ZstCodec.Match.Fast

def hashWidth (t : Tuning) : Nat := if 5 ≤ t.minMatch ∧ t.minMatch ≤ 7 then t.minMatch else 4

/-! ### Filling the table from a dictionary -/

/-- Enter every third position from `i` on. -/
def fillFrom (h : Hasher) (b : ByteArray) (stop i : Nat) (t : Table) : Nat → Table
  | 0 => t
  | fuel + 1 =>
    if i + 3 < stop - hashReach + 2 then fillFrom h b stop (i + 3) (t.set (h.hashAt b i) i) fuel else t

def tagSize : Nat := 256

@[inline] def setTagged (t : Table) (hashAndTag pos : Nat) : Table :=
  t.set (hashAndTag / tagSize) (pos * tagSize + hashAndTag % tagSize)

@[inline] def fillFree (h : Hasher) (b : ByteArray) (i : Nat) (t : Table) : Table :=
  let k := h.hashAt b i
  if t.get (k / tagSize) = 0 then setTagged t k i else t

/-- Enter every third position from `i` on, and others whose places are free. -/
def fillTagged (h : Hasher) (b : ByteArray) (stop i : Nat) (t : Table) : Nat → Table
  | 0 => t
  | fuel + 1 =>
    if i + 3 < stop - hashReach + 2 then
      let t := setTagged t (h.hashAt b i) i
      fillTagged h b stop (i + 3) (fillFree h b (i + 2) (fillFree h b (i + 1) t)) fuel
    else t

/-! ### Searching -/

/-- Outcome of a search. -/
structure Hit where
  table : Table
  found : Bool
  repeated : Bool
  pos : Nat
  entered : Nat
  source : Nat
  /-- The next place looked at, its hash, and whether any match reaches beyond it. -/
  ahead : Nat
  aheadHash : Nat
  near : Bool

@[inline] def Hit.missed (t : Table) : Hit := ⟨t, false, false, 0, 0, 0, 0, 0, false⟩

/-- What stays fixed while a block is searched. -/
structure Scan where
  b : ByteArray
  hasher : Hasher
  older : Older
  low : Nat
  start : Nat
  stop : Nat
  limit : Nat
  stepSize : Nat

def scanOf (f : Finder) (older : Older) (low start stop : Nat) : Scan :=
  { b := f.content, hasher := .ofWidth (hashWidth f.tuning) f.tuning.hashLog 0, older, low, start, stop,
    limit := stop - hashReach, stepSize := max 1 f.tuning.targetLength + (if older = .dictionary then 0 else 1) }

@[inline] def Scan.matches (s : Scan) (idx pos : Nat) : Bool := s.low ≤ idx && same4 s.b idx pos

/-- A repetition does not start too close to the end of an older segment. -/
@[inline] def Scan.allows (s : Scan) (pos offset : Nat) : Bool :=
  s.older = .nothing || offset ≤ pos && (s.start < pos - offset || pos - offset + 4 ≤ s.start)

/-- A source that is not in the last three bytes before `start`. -/
@[inline] def clearOf (start source : Nat) : Bool := start ≤ source || source + 4 ≤ start

/-- The same for a repetition behind a match. -/
@[inline] def Scan.clears (s : Scan) (pos offset : Nat) : Bool :=
  s.older = .nothing || offset ≤ pos && clearOf s.start (pos - offset)

/-- Walk until a match is found. `ip0` is looked up at `idx`, `ip2` is tested for a repetition. -/
def search (s : Scan) (rep1 : Nat) (t : Table) (ip0 ip1 ip2 ip3 hash0 hash1 idx step nextStep : Nat) :
    Nat → Hit
  | 0 => .missed t
  | fuel + 1 =>
    let t := t.set hash0 ip0
    if rep1 > 0 && s.allows ip2 rep1 && same4 s.b ip2 (ip2 - rep1) then
      ⟨t, true, true, ip2, ip0, ip2 - rep1, ip1, hash1, true⟩
    else if s.matches idx ip0 then ⟨t, true, false, ip0, ip0, idx, ip1, hash1, true⟩
    else
      let idx := t.get hash1
      let hash0 := hash1
      let hash1 := s.hasher.hashAt s.b ip2
      let ip0 := ip1
      let ip1 := ip2
      let ip2 := ip3
      let t := t.set hash0 ip0
      if s.matches idx ip0 then ⟨t, true, false, ip0, ip0, idx, ip1, hash1, step ≤ 4⟩
      else
        let idx := t.get hash1
        let hash0 := hash1
        let hash1 := s.hasher.hashAt s.b ip2
        let ip0 := ip1
        let ip1 := ip2
        let ip2 := ip0 + step
        let ip3 := ip1 + step
        let grow := nextStep ≤ ip2
        let step := if grow then step + 1 else step
        let nextStep := if grow then nextStep + 2 ^ (searchStrength - 1) else nextStep
        if ip3 < s.limit then search s rep1 t ip0 ip1 ip2 ip3 hash0 hash1 idx step nextStep fuel
        else .missed t

@[inline] def searchFrom (s : Scan) (rep1 : Nat) (t : Table) (ip0 : Nat) : Hit :=
  let ip1 := ip0 + 1
  let ip2 := ip0 + s.stepSize
  let ip3 := ip2 + 1
  if s.limit ≤ ip3 then .missed t
  else
    let hash0 := s.hasher.hashAt s.b ip0
    let hash1 := s.hasher.hashAt s.b ip1
    search s rep1 t ip0 ip1 ip2 ip3 hash0 hash1 (t.get hash0) s.stepSize
      (ip0 + 2 ^ (searchStrength - 1)) (s.limit - ip0)

/-- The dictionary's table and hash. -/
structure DictScan where
  table : Table
  hasher : Hasher

/-- Walk one place a round; the place behind it is tested for a repetition. -/
def searchDict (s : Scan) (d : DictScan) (rep1 : Nat) (t : Table)
    (ip0 ip1 hash0 dictEntry dictHash idx step nextStep : Nat) : Nat → Hit
  | 0 => .missed t
  | fuel + 1 =>
    let hash1 := s.hasher.hashAt s.b ip1
    let dictHash1 := d.hasher.hashAt s.b ip1
    let t := t.set hash0 ip0
    if s.clears (ip0 + 1) rep1 && same4 s.b (ip0 + 1) (ip0 + 1 - rep1) then
      ⟨t, true, true, ip0 + 1, ip0, ip0 + 1 - rep1, 0, 0, false⟩
    else
      let dictPos := dictEntry / tagSize
      if dictEntry % tagSize == dictHash % tagSize && s.low < dictPos && idx ≤ s.start
          && same4 s.b dictPos ip0 then
        ⟨t, true, false, ip0, ip0, dictPos, 0, 0, false⟩
      else if s.start < idx && same4 s.b idx ip0 then ⟨t, true, false, ip0, ip0, idx, 0, 0, false⟩
      else
        let dictEntry := d.table.get (dictHash1 / tagSize)
        let idx := t.get hash1
        let grow := nextStep ≤ ip1
        let step := if grow then step + 1 else step
        let nextStep := if grow then nextStep + 2 ^ searchStrength else nextStep
        let ip0 := ip1
        let ip1 := ip1 + step
        if s.limit < ip1 then .missed t
        else searchDict s d rep1 t ip0 ip1 hash1 dictEntry dictHash1 idx step nextStep fuel

def searchDictFrom (s : Scan) (d : DictScan) (rep1 : Nat) (t : Table) (pos : Nat) : Hit :=
  let ip1 := pos + s.stepSize
  if s.limit < ip1 then .missed t
  else
    let hash0 := s.hasher.hashAt s.b pos
    let dictHash := d.hasher.hashAt s.b pos
    searchDict s d rep1 t pos ip1 hash0 (d.table.get (dictHash / tagSize)) dictHash (t.get hash0) s.stepSize
      (pos + 2 ^ searchStrength) (s.stop - pos)

/-! ### Taking matches -/

/-- Sequences collected so far, with what the next search needs. -/
structure Progress where
  table : Table
  pos : Nat
  anchor : Nat
  rep1 : Nat
  rep2 : Nat
  seqs : Array Seq

/-- Right behind a match the second last offset may repeat, again and again. -/
def repeats (s : Scan) (t : Table) (pos rep1 rep2 : Nat) (seqs : Array Seq) : Nat → Progress
  | 0 => ⟨t, pos, pos, rep1, rep2, seqs⟩
  | fuel + 1 =>
    if pos ≤ s.limit && 0 < rep2 && s.clears pos rep2 && same4 s.b pos (pos - rep2) then
      let length := agreement s.b (pos + 4) (pos + 4 - rep2) s.stop + 4
      let t := t.set (s.hasher.hashAt s.b pos) pos
      repeats s t (pos + length) rep2 rep1 (seqs.push ⟨0, 1, length⟩) fuel
    else ⟨t, pos, pos, rep1, rep2, seqs⟩

@[inline] def enterMatch (s : Scan) (t : Table) (entered pos : Nat) : Table :=
  let t := t.set (s.hasher.hashAt s.b (entered + 2)) (entered + 2)
  t.set (s.hasher.hashAt s.b (pos - 2)) (pos - 2)

/-- How far a match at `pos` is extended backwards: a repetition by one byte at most, and not with a dictionary. -/
@[inline] def Scan.back (s : Scan) (repeated : Bool) (pos anchor source : Nat) : Nat :=
  if repeated then if s.older ≠ .dictionary && byteAt s.b (pos - 1) == byteAt s.b (source - 1) then 1 else 0
  else backward s.b pos anchor source (if source < s.start then s.low else s.start)

/-- Whether the next place looked at is entered, if the match ends at `pos`. -/
@[inline] def Scan.enters (s : Scan) (near : Bool) (ahead pos : Nat) : Bool :=
  match s.older with
  | .nothing => near
  | .segment => ahead < pos
  | .dictionary => false

def parseFrom (s : Scan) (find : Nat → Table → Nat → Hit) (p : Progress) : Nat → Progress
  | 0 => p
  | fuel + 1 =>
    let ⟨t, pos, anchor, rep1, rep2, seqs⟩ := p
    let ⟨t, found, repeated, hpos, entered, source, ahead, aheadHash, near⟩ := find rep1 t pos
    if !found then ⟨t, pos, anchor, rep1, rep2, seqs⟩
    else
      let back := s.back repeated hpos anchor source
      let offset := hpos - source
      let length := 4 + agreement s.b (hpos + 4) (source + 4) s.stop + back
      let pos := hpos - back
      let seqs := seqs.push ⟨pos - anchor, if repeated then 1 else offset + 3, length⟩
      let rep2 := if repeated then rep2 else rep1
      let rep1 := if repeated then rep1 else offset
      let pos := pos + length
      let t := if s.enters near ahead pos then t.set aheadHash ahead else t
      if pos ≤ s.limit then
        parseFrom s find (repeats s (enterMatch s t entered pos) pos rep1 rep2 seqs (s.stop - pos)) fuel
      else parseFrom s find ⟨t, pos, pos, rep1, rep2, seqs⟩ fuel

/-! ### Blocks -/

def parseBlock (s : Scan) (find : Nat → Table → Nat → Hit) (f : Finder) (reps : Reps)
    (i j pos rep1 rep2 saved1 saved2 : Nat) : Parsed :=
  let table := f.tables.hash
  let f := { f with tables := { f.tables with hash := .none } }
  let p := parseFrom s find ⟨table, pos, i, rep1, rep2, #[]⟩ (j - i)
  { finder := { f with tables := { f.tables with hash := p.table } }
    reps := restore reps p.rep1 p.rep2 saved1 saved2
    seqs := p.seqs
    rest := j - p.anchor }

def parseSegment (f : Finder) (reps : Reps) (i j : Nat) : Parsed :=
  let low := f.lowestInSegment j
  let pos := if i = low then i + 1 else i
  let most := pos - f.lowestInSegment pos
  let (rep2, saved2) := setAside reps.second (most < reps.second)
  let (rep1, saved1) := setAside reps.first (most < reps.first)
  let s := scanOf f .nothing low low j
  parseBlock s (searchFrom s) f reps i j pos rep1 rep2 saved1 saved2

def parseOlder (f : Finder) (reps : Reps) (i j : Nat) : Parsed :=
  let low := f.lowest j
  let start := max f.start low
  if start = low then parseSegment f reps i j
  else
    let most := i - low
    let (rep2, saved2) := setAside reps.second (most ≤ reps.second)
    let (rep1, saved1) := setAside reps.first (most ≤ reps.first)
    let s := scanOf f .segment low start j
    parseBlock s (searchFrom s) f reps i j i rep1 rep2 saved1 saved2

def parseDict (f : Finder) (dict : Attached) (reps : Reps) (i j : Nat) : Parsed :=
  let s := scanOf f .dictionary dict.low f.start j
  let d : DictScan := { table := dict.tables.hash, hasher := .ofWidth (hashWidth f.tuning) (dict.tuning.hashLog + 8) 0 }
  let pos := if i = f.start ∧ dict.stop = dict.low then i + 1 else i
  parseBlock s (searchDictFrom s d) f reps i j pos reps.first reps.second 0 0

def parse (f : Finder) (reps : Reps) (i j : Nat) : Parsed :=
  match f.older, f.attached with
  | .segment, _ => parseOlder f reps i j
  | .dictionary, some d => parseDict f d reps i j
  | _, _ => parseSegment f reps i j

end ZstCodec.Match.Fast
