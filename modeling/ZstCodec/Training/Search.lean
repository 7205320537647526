import ZstCodec.Training.Complete

/-! # Training

Training tries several lengths of segments and words, and keeps the dictionary with which the samples set apart for
testing, with the dictionary itself, come out smallest. Of equals the first is kept. Left out numbers are zero; training
then chooses them. -/

namespace ZstCodec.Training

/-- What is asked for. -/
structure Request where
  k : Nat := 0
  d : Nat := 0
  f : Nat := 0
  steps : Nat := 0
  /-- The part of the samples that is trained on; the others are for testing, or all serve both. -/
  split : Float := 0
  accel : Nat := 0
  id : Nat := 0
  level : Int := 0

/-- A trained dictionary and the lengths it was made with. -/
structure Trained where
  dictionary : ByteArray
  k : Nat
  d : Nat

/-- The percentage of the samples that tables come from, and the words passed over in counting. -/
def acceleration : Array (Nat × Nat) := #[
  (100, 0), (100, 0), (50, 1), (34, 2), (25, 3), (20, 4), (17, 5), (14, 6), (13, 7), (11, 8), (10, 9)]

def maxAcceleration : Nat := 10

def maxBits : Nat := 31

def bitsLimit : Nat := 34

def samplesLimit : Nat := 2 ^ 32 - 1

def leastSamples : Nat := 5

/-- A training under way: what was asked for, with all choices made. -/
structure Task where
  samples : Samples
  capacity : Nat
  trained : Nat
  tested : Nat
  counted : Nat
  step : Nat
  bits : Nat
  id : Nat
  level : Int

namespace Task

def cost (t : Task) (dictionary : ByteArray) : Except Fault Nat := do
  let tuning := Tuning.ofLevelFor t.level none dictionary.size .preparing
  let d ← Compress.Dictionary.prepare (.ofTuning tuning) 0 dictionary .auto
  (List.range (t.samples.count - t.tested)).foldlM
    (fun total i => return total + (← d.frameSize t.level (t.samples.get (t.tested + i)))) dictionary.size

def admits (t : Task) (k d : Nat) : Bool := (d = 6 || d = 8) && k ≤ t.capacity && d ≤ k && t.bits ≤ maxBits

def attempt (t : Task) (worth : Match.Table) (k d : Nat) : Except Fault (Nat × Trained) := do
  let w : Words := { length := d, bits := t.bits }
  let content := gather w t.samples.bytes (t.samples.startOf t.trained) k t.capacity worth
  let dictionary ← complete t.samples t.counted t.level t.id t.capacity content
  return (← t.cost dictionary, { dictionary, k, d })

def better (best : Option (Nat × Trained)) : Except Fault (Nat × Trained) → Option (Nat × Trained)
  | .error _ => best
  | .ok new => match best with
    | none => some new
    | some old => if new.1 < old.1 then some new else some old

def tryAll (t : Task) (ks : List Nat) (d : Nat) (best : Option (Nat × Trained)) : Option (Nat × Trained) :=
  let worth := occurrences { length := d, bits := t.bits } t.samples t.trained t.step
  ks.foldl (fun best k => if t.admits k d then better best (t.attempt worth k d) else best) best

end Task

namespace Request

def defaultSplit : Float := 0.75

def orElse (n default : Nat) : Nat := if n = 0 then default else n

def wordLengths (r : Request) : List Nat := if r.d = 0 then [6, 8] else [r.d]

def segmentLengths (r : Request) : List Nat :=
  if r.k = 0 then
    let step := max (1950 / orElse r.steps 40) 1
    (List.range (1950 / step + 1)).map fun i => 50 + i * step
  else [r.k]

def task (r : Request) (capacity : Nat) (samples : Samples) (split : Float) (d : Nat) : Except Fault Task := do
  let n := samples.count
  let total := samples.bytes.size
  let apart := split < 1
  let trained := if apart then (n.toFloat * split).toUInt64.toNat else n
  let tested := if apart then trained else 0
  if total < max d wordReach ∨ samplesLimit ≤ total then throw .sourceSizeWrong
  if trained < leastSamples ∨ n ≤ tested then throw .sourceSizeWrong
  let (percent, skip) := acceleration.getD (orElse r.accel 1) (100, 0)
  let bits := orElse r.f 20
  if bitsLimit ≤ bits then throw .memory
  return {
    samples, capacity, trained, tested, bits, id := r.id
    counted := trained * percent / 100
    step := skip + 1
    level := if r.level = 0 then Tuning.defaultLevel else r.level }

def train (r : Request) (capacity : Nat) (samples : Samples) : Except Fault Trained := do
  let split := if r.split ≤ 0 then defaultSplit else r.split
  if ! (split ≤ 1) then throw .parameterOutOfBound
  if maxAcceleration < orElse r.accel 1 then throw .parameterOutOfBound
  if orElse r.k 50 < orElse r.d 8 then throw .parameterOutOfBound
  if samples.count = 0 then throw .sourceSizeWrong
  if capacity < leastCapacity then throw .outputTooSmall
  let best ← r.wordLengths.foldlM
    (fun best d => return (← r.task capacity samples split d).tryAll r.segmentLengths d best) none
  match best with
  | some (_, trained) => return trained
  | none => throw .generic

end Request

end ZstCodec.Training
