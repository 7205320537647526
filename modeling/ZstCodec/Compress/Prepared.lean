import ZstCodec.Compress.Stream

/-! # Frames of a prepared dictionary alone

Frames can be written with a prepared dictionary alone. Short inputs take its tuning. A long input, for which it matters
little, takes the tuning of the level and enters the dictionary into fresh tables. -/

namespace ZstCodec.Compress.Dictionary

def shortInput : Nat := 131072

def shortMultiple : Nat := 6

def suits (d : Dictionary) : Option Nat → Bool
  | none => true
  | some n => n < shortInput || n < d.size * shortMultiple

def widenLimit : Nat := 2 ^ 19

def widened (windowLog : Nat) : Option Nat → Nat
  | none => windowLog
  | some n =>
    let n := min n widenLimit
    max windowLog (if 1 < n then highBit (n - 1) + 1 else 1)

def content (d : Dictionary) : ByteArray := slice d.finder.content d.finder.start d.finder.content.size

/-- The writer of a frame whose tables are filled from the content of the dictionary. -/
def startLoaded (d : Dictionary) (own : Tuning) (windowLog : Nat) (pledged : Option Nat) : Writer :=
  let s : Settings := {}
  let t := { own with windowLog }
  let p := planOf s t own.usesRows own d.id pledged
  let f := (Match.Finder.fresh t p.rows).load d.content false Match.Finder.fillInput
  { plan := p
    finder := { f with prices := promisedPrices d.coding }
    longDistance := longDistanceOf s own windowLog f.content.size
    coding := d.coding
    reps := d.reps
    origin := f.content.size }

/-- The writer of a frame of the dictionary, which was prepared for `level`. -/
def start (d : Dictionary) (level : Int) (pledged : Option Nat) : Writer :=
  if d.suits pledged then
    let own := d.finder.tuning
    startBeside {} d own (d.attaches false pledged) (widened own.windowLog pledged) pledged
  else
    let own := Tuning.ofLevel level (pledged.getD 0) d.size
    d.startLoaded own (widened own.windowLog pledged) pledged

def frameSize (d : Dictionary) (level : Int) (input : ByteArray) : Except Fault Nat := do
  let out ← ((d.start level (some input.size)).finish directPlace input).2
  return out.size

end ZstCodec.Compress.Dictionary
