import ZstCodec.Match.Finder
import ZstCodec.Match.Gear
import ZstCodec.Match.LongSeq
import ZstCodec.Hash.XxHash64

/-! # Matches over long distances

Repetitions far back are looked for before a block is searched. Only positions behind which a rolling hash has certain
bits clear are entered, so that the same bytes are chosen wherever they stand. An entry is found by the hash of the
bytes before it, as many as a match must have; it belongs to a bucket, in which the oldest makes way. -/

namespace ZstCodec.Match

/-- How long-distance matching is tuned. -/
structure LongTuning where
  hashLog : Nat
  bucketLog : Nat
  minMatch : Nat
  rateLog : Nat
  deriving Repr

structure LongDistance where
  tuning : LongTuning
  windowLog : Nat
  positions : Table
  sums : Table
  heads : Table
  low : Nat
  start : Nat

namespace LongDistance

def fresh (t : LongTuning) (windowLog start : Nat) : LongDistance :=
  { tuning := t, windowLog
    positions := .zeros t.hashLog
    sums := .zeros t.hashLog
    heads := .zeros (t.hashLog - t.bucketLog)
    low := start, start }

def batchSize : Nat := 64

def firstHash : UInt64 := 0xFFFFFFFF

/-- The bits that are clear behind a chosen position: the oldest that all bytes of a least match enter into. -/
def mask (t : LongTuning) : UInt64 :=
  let bits := min t.minMatch 64
  let ones : UInt64 := ((1 : UInt64) <<< t.rateLog.toUInt64) - 1
  if 0 < t.rateLog ∧ t.rateLog ≤ bits then ones <<< (bits - t.rateLog).toUInt64 else ones

/-- Roll from `i` on until a batch is full: the places chosen, latest first, the end, and the hash. -/
def roll (b : ByteArray) (mask hash : UInt64) (i : Nat) (chosen : List Nat) (free : Nat) : Nat → List Nat × Nat × UInt64
  | 0 => (chosen, i, hash)
  | n + 1 =>
    let hash := turn hash (natAt b i)
    if hash &&& mask = 0 then
      if free = 1 then ((i + 1) :: chosen, i + 1, hash)
      else roll b mask hash (i + 1) ((i + 1) :: chosen) (free - 1) n
    else roll b mask hash (i + 1) chosen free n

def enter (l : LongDistance) (bucket sum pos : Nat) : LongDistance :=
  let ⟨tuning, windowLog, positions, sums, heads, low, start⟩ := l
  let size := 2 ^ tuning.bucketLog
  let head := heads.get bucket
  let at_ := bucket * size + head
  { tuning, windowLog, positions := positions.set at_ pos, sums := sums.set at_ sum
    heads := heads.set bucket ((head + 1) % size), low, start }

/-- A candidate: its position, and how far it agrees forwards and backwards. -/
structure Candidate where
  pos : Nat
  forward : Nat
  backward : Nat

/-- The longest match of `pos` among the entries from `k` on; the first of equals is kept. -/
def search (l : LongDistance) (b : ByteArray) (pos anchor stop bucket sum k : Nat) (best : Option Candidate) :
    Nat → Option Candidate
  | 0 => best
  | n + 1 =>
    let at_ := bucket * 2 ^ l.tuning.bucketLog + k
    let m := l.positions.get at_
    let lowest := if l.low < l.start then l.low else l.start
    if l.sums.get at_ ≠ sum || m ≤ lowest then search l b pos anchor stop bucket sum (k + 1) best n
    else
      let forward := agreement b pos m stop
      if forward < l.tuning.minMatch then search l b pos anchor stop bucket sum (k + 1) best n
      else
        let back := backward b pos anchor m lowest
        let better := match best with
          | none => true
          | some c => c.forward + c.backward < forward + back
        search l b pos anchor stop bucket sum (k + 1) (if better then some ⟨m, forward, back⟩ else best) n

/-- Look up the places chosen. The answer has the end of the last match found. -/
def lookUp (l : LongDistance) (b : ByteArray) (stop rolled anchor : Nat) (seqs : Array LongSeq) :
    List Nat → LongDistance × Nat × Array LongSeq
  | [] => (l, anchor, seqs)
  | place :: rest =>
    let t := l.tuning
    let pos := place - t.minMatch
    let h := XxHash64.range b pos place
    let bucket := (h &&& (((1 : UInt64) <<< (t.hashLog - t.bucketLog).toUInt64) - 1)).toNat
    let sum := (h >>> 32).toNat
    if pos < anchor then lookUp (l.enter bucket sum pos) b stop rolled anchor seqs rest
    else match l.search b pos anchor stop bucket sum 0 none (2 ^ t.bucketLog) with
      | none => lookUp (l.enter bucket sum pos) b stop rolled anchor seqs rest
      | some c =>
        let seqs := seqs.push ⟨pos - c.backward - anchor, c.forward + c.backward, pos - c.pos⟩
        let l := l.enter bucket sum pos
        let anchor := pos + c.forward
        if rolled < anchor then (l, anchor, seqs) else lookUp l b stop rolled anchor seqs rest

/-- Find the long matches from `pos` on. A match that reaches beyond its batch is jumped over. -/
def findFrom (l : LongDistance) (b : ByteArray) (stop pos anchor : Nat) (hash : UInt64) (seqs : Array LongSeq) :
    Nat → LongDistance × Array LongSeq
  | 0 => (l, seqs)
  | fuel + 1 =>
    let limit := stop - hashReach
    if limit ≤ pos then (l, seqs)
    else
      let (chosen, rolled, hash) := roll b (mask l.tuning) hash pos [] batchSize (limit - pos)
      let (l, anchor, seqs) := lookUp l b stop rolled anchor seqs chosen.reverse
      findFrom l b stop (max rolled anchor) anchor hash seqs fuel

def find (l : LongDistance) (b : ByteArray) (i j : Nat) : LongDistance × Ahead :=
  let low := max l.low (j - 2 ^ l.windowLog)
  let l := { l with low, start := max l.start low }
  if j - i < l.tuning.minMatch then (l, {})
  else
    let (l, seqs) := findFrom l b j (i + l.tuning.minMatch) i firstHash #[] (j - i)
    (l, { seqs })

end LongDistance

end ZstCodec.Match
