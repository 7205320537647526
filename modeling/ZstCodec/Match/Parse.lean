import ZstCodec.Match.Fill
import ZstCodec.Match.Lazy
import ZstCodec.Match.Optimal

/-! # Cutting a block into sequences

Each strategy has its own way. If long matches have been found ahead, the quicker strategies search only what lies
between them, while the optimal ones weigh them against other matches. -/

namespace ZstCodec.Match

namespace Finder

/-- Positions passed over without a search are entered late, but not too many of them. -/
def catchUp (f : Finder) (i : Nat) : Finder :=
  if f.next + 384 < i then { f with next := i - min 192 (i - f.next - 384) } else f

def catchUpLong (f : Finder) (i : Nat) : Finder :=
  if f.next + 1024 < i then { f with next := i - min 512 (i - f.next - 1024) } else f

def parseStretch (f : Finder) (reps : Reps) (i j : Nat) : Parsed :=
  match f.tuning.strategy with
  | .fast => Fast.parse f reps i j
  | .dfast => DoubleFast.parse f reps i j
  | _ => Lazy.parse f reps i j

def parseBetween (f : Finder) (reps : Reps) (i j : Nat) (seqs : Array Seq) : List LongSeq → Parsed
  | [] =>
    let ⟨f, reps, part, rest⟩ := ((f.catchUpLong i).fillFast i).parseStretch reps i j
    ⟨f, reps, seqs ++ part, rest⟩
  | s :: long =>
    let ⟨f, reps, part, rest⟩ := ((f.catchUpLong i).fillFast i).parseStretch reps i (i + s.literals)
    parseBetween f (reps.push s.offset) (i + s.literals + s.length) j
      ((seqs ++ part).push ⟨rest, s.offset + 3, s.length⟩) long

/-- Cut the bytes `i … j - 1` into sequences; `ahead` has the long matches that were looked for. -/
def parse (f : Finder) (ahead : Option Ahead) (reps : Reps) (i j : Nat) : Parsed :=
  if f.tuning.strategy.isOptimal then Optimal.parse f (ahead.getD {}) reps i j
  else match ahead with
    | none => f.parseStretch reps i j
    | some a => f.parseBetween reps i j #[] a.seqs.toList

end Finder

end ZstCodec.Match
