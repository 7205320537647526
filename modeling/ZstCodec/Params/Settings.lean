import ZstCodec.Params.Tuning
import ZstCodec.Frame.Header

/-! # Settings of a compressor

What a user may set, each parameter by a number. A number out of bounds is refused, except that levels and the numbers
about workers are moved to the nearest bound, and that flags take any number. For the tuning and for long-distance
matching zero means *not set*: the level decides. -/

namespace ZstCodec

open Tuning

/-- A choice that may be left to the compressor. -/
inductive Switch where
  | auto
  | on
  | off
  deriving DecidableEq, Repr

namespace Switch

def code : Switch → Nat
  | auto => 0
  | on => 1
  | off => 2

def ofCode? : Nat → Option Switch
  | 0 => some auto
  | 1 => some on
  | 2 => some off
  | _ => none

end Switch

inductive Parameter where
  | format | level
  | windowLog | hashLog | chainLog | searchLog | minMatch | targetLength | strategy
  | contentSizeFlag | checksumFlag | dictIdFlag
  | workers | jobSize | overlapLog
  | forceMaxWindow
  | longDistance | ldmHashLog | ldmMinMatch | ldmBucketLog | ldmHashRateLog
  deriving DecidableEq, Repr

structure Settings where
  format : Frame.Format := .marked
  level : Int := defaultLevel
  windowLog : Nat := 0
  hashLog : Nat := 0
  chainLog : Nat := 0
  searchLog : Nat := 0
  minMatch : Nat := 0
  targetLength : Nat := 0
  strategy : Option Strategy := none
  contentSizeFlag : Bool := true
  checksumFlag : Bool := false
  dictIdFlag : Bool := true
  workers : Nat := 0
  jobSize : Nat := 0
  overlapLog : Nat := 0
  forceMaxWindow : Bool := false
  longDistance : Switch := .auto
  ldmHashLog : Nat := 0
  ldmMinMatch : Nat := 0
  ldmBucketLog : Nat := 0
  ldmHashRateLog : Nat := 0
  deriving DecidableEq, Repr, Inhabited

namespace Settings

def workersMax : Int := 256
def jobSizeMin : Int := 524288
def jobSizeMax : Int := 1073741824
def overlapLogMax : Int := 9

def bounded (lo hi : Nat) (v : Int) : Except Fault Nat :=
  if (lo : Int) ≤ v ∧ v ≤ hi then .ok v.toNat else .error .parameterOutOfBound

def optional (lo hi : Nat) (v : Int) : Except Fault Nat := if v = 0 then .ok 0 else bounded lo hi v

def clamp (lo hi v : Int) : Int := min (max v lo) hi

def set (s : Settings) (p : Parameter) (v : Int) : Except Fault Settings := do
  match p with
  | .format =>
    let n ← bounded 0 1 v
    return { s with format := if n = 0 then .marked else .unmarked }
  | .level =>
    let v := clamp minLevel maxLevel v
    return { s with level := if v = 0 then defaultLevel else v }
  | .windowLog => return { s with windowLog := ← optional windowLogMin windowLogMax v }
  | .hashLog => return { s with hashLog := ← optional hashLogMin hashLogMax v }
  | .chainLog => return { s with chainLog := ← optional chainLogMin chainLogMax v }
  | .searchLog => return { s with searchLog := ← optional searchLogMin searchLogMax v }
  | .minMatch => return { s with minMatch := ← optional minMatchMin minMatchMax v }
  | .targetLength => return { s with targetLength := ← bounded 0 targetLengthMax v }
  | .strategy =>
    let n ← optional 1 9 v
    return { s with strategy := Strategy.ofRank? n }
  | .contentSizeFlag => return { s with contentSizeFlag := v ≠ 0 }
  | .checksumFlag => return { s with checksumFlag := v ≠ 0 }
  | .dictIdFlag => return { s with dictIdFlag := v ≠ 0 }
  | .workers => return { s with workers := (clamp 0 workersMax v).toNat }
  | .jobSize => return { s with jobSize := if v = 0 then 0 else (clamp jobSizeMin jobSizeMax v).toNat }
  | .overlapLog => return { s with overlapLog := (clamp 0 overlapLogMax v).toNat }
  | .forceMaxWindow => return { s with forceMaxWindow := v ≠ 0 }
  | .longDistance =>
    let n ← bounded 0 2 v
    return { s with longDistance := (Switch.ofCode? n).getD .auto }
  | .ldmHashLog => return { s with ldmHashLog := ← optional 6 30 v }
  | .ldmMinMatch => return { s with ldmMinMatch := ← optional 4 4096 v }
  | .ldmBucketLog => return { s with ldmBucketLog := ← optional 1 8 v }
  | .ldmHashRateLog => return { s with ldmHashRateLog := ← optional 0 25 v }

def get (s : Settings) : Parameter → Int
  | .format => match s.format with | .marked => 0 | .unmarked => 1
  | .level => s.level
  | .windowLog => s.windowLog
  | .hashLog => s.hashLog
  | .chainLog => s.chainLog
  | .searchLog => s.searchLog
  | .minMatch => s.minMatch
  | .targetLength => s.targetLength
  | .strategy => match s.strategy with | none => 0 | some t => t.rank
  | .contentSizeFlag => if s.contentSizeFlag then 1 else 0
  | .checksumFlag => if s.checksumFlag then 1 else 0
  | .dictIdFlag => if s.dictIdFlag then 1 else 0
  | .workers => s.workers
  | .jobSize => s.jobSize
  | .overlapLog => s.overlapLog
  | .forceMaxWindow => if s.forceMaxWindow then 1 else 0
  | .longDistance => s.longDistance.code
  | .ldmHashLog => s.ldmHashLog
  | .ldmMinMatch => s.ldmMinMatch
  | .ldmBucketLog => s.ldmBucketLog
  | .ldmHashRateLog => s.ldmHashRateLog

def setAll (s : Settings) : List (Parameter × Int) → Except Fault Settings
  | [] => .ok s
  | (p, v) :: rest => do (← s.set p v).setAll rest

/-! ### From settings to a tuning -/

def longWindowLog : Nat := 27

def override (s : Settings) (t : Tuning) : Tuning :=
  let pick (own byLevel : Nat) : Nat := if own = 0 then byLevel else own
  { windowLog := pick s.windowLog t.windowLog
    chainLog := pick s.chainLog t.chainLog
    hashLog := pick s.hashLog t.hashLog
    searchLog := pick s.searchLog t.searchLog
    minMatch := pick s.minMatch t.minMatch
    targetLength := pick s.targetLength t.targetLength
    strategy := s.strategy.getD t.strategy }

def ofTuning (t : Tuning) : Settings :=
  { windowLog := t.windowLog, hashLog := t.hashLog, chainLog := t.chainLog, searchLog := t.searchLog
    minMatch := t.minMatch, targetLength := t.targetLength, strategy := some t.strategy }

/-- The tuning for input of the given size behind a dictionary of `dict` bytes. -/
def tuning (s : Settings) (level : Int) (size : Option Nat) (dict : Nat) (use : Tuning.Use) : Tuning :=
  let t := ofLevelFor level size dict use
  let t := if s.longDistance = .on then { t with windowLog := longWindowLog } else t
  (s.override t).fit size dict use

end Settings

namespace Tuning

def usesRows (t : Tuning) : Bool := t.strategy.isLazy && 14 < t.windowLog

def splitsBlocks (t : Tuning) : Bool := t.strategy.isOptimal && 17 ≤ t.windowLog

def wantsLongDistance (t : Tuning) : Bool := t.strategy.isOptimal && 27 ≤ t.windowLog

end Tuning

end ZstCodec
