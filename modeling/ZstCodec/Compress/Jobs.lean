import ZstCodec.Compress.Frame
import ZstCodec.Match.Fill

/-! # Frames written in jobs

A large input that is known as a whole is cut into jobs of equal size, which make up one frame. Every job but the first
starts from tables with only the end of the job before it, and remembers no offsets. How many workers there are makes no
difference. -/

namespace ZstCodec.Compress

namespace Jobs

def leastInput : Nat := 524288

/-- By how many bits the overlap is smaller than the window, by default. -/
def overlapDrop (s : Strategy) : Nat := if s.rank = 9 then 0 else if 7 ≤ s.rank then 1 else if 5 ≤ s.rank then 2 else 3

def overlapSize (s : Settings) (t : Tuning) : Nat :=
  let drop := if s.overlapLog = 0 then overlapDrop t.strategy else 9 - s.overlapLog
  let log := if 8 ≤ drop then 0 else t.windowLog - drop
  if log = 0 then 0 else 2 ^ log

def of (s : Settings) (t : Tuning) (pledged : Option Nat) : Option Jobs :=
  match pledged with
  | none => none
  | some n =>
    if s.workers = 0 || n ≤ leastInput then none
    else
      let overlap := overlapSize s t
      let size := if s.jobSize = 0 then 2 ^ min 30 (max 20 (t.windowLog + 2)) else s.jobSize
      some { size := max size overlap, overlap, tuning := t }

end Jobs

namespace Writer

/-- The writer of a further job: `before` is the end of the job before it. -/
def nextJob (w : Writer) (jobs : Jobs) (before : ByteArray) (size : Nat) : Writer :=
  let t := jobs.tuning
  let rows := t.usesRows
  { plan := { w.plan with tuning := t, rows, forceWindow := true, pledged := some size }
    finder := (Match.Finder.fresh t rows).load before true Match.Finder.fillInput
    reps := { first := 0, second := 0, third := 0 }
    stage := .ongoing }

/-- Write the jobs of the input from `i` on, of which `w` has the first. -/
def writeJobs (w : Writer) (jobs : Jobs) (place : Int) (input : ByteArray) (i : Nat) (out : ByteArray) :
    Nat → Writer × Except Fault ByteArray
  | 0 => (w, .ok out)
  | fuel + 1 =>
    let j := min input.size (i + jobs.size)
    let last := j = input.size
    match w.add place (slice input i j) last with
    | (w, .error e) => (w, .error e)
    | (w, .ok bytes) =>
      let out := out ++ bytes
      if last then (w, .ok (w.ending input 0 out))
      else
        let k := min (j + jobs.size) input.size
        let next := w.nextJob jobs (slice input (j - min (j - i) jobs.overlap) j) (k - j)
        -- what the job refers to directly precedes its input
        next.writeJobs jobs next.places.next input j out fuel

def finishInJobs (w : Writer) (jobs : Jobs) (input : ByteArray) : Writer × Except Fault ByteArray :=
  match w.writeJobs jobs directPlace input 0 .empty (input.size + 1) with
  | (w, .error e) => (w, .error e)
  | (w, .ok out) => ({ w with stage := .created, consumed := input.size, produced := out.size }, .ok out)

/-- Write all that is left of a frame, in jobs if nothing of it has been written yet. -/
def finishAtOnce (w : Writer) (input : ByteArray) : Writer × Except Fault ByteArray :=
  match w.plan.jobs with
  | some jobs => if w.stage = .beforeHeader then w.finishInJobs jobs input else w.finish directPlace input
  | none => w.finish directPlace input

end Writer

end ZstCodec.Compress
