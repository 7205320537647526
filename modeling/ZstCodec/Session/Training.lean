import ZstCodec.Session.Make
import ZstCodec.Training.Search

/-! # Training on request

The arguments of training are checked in a fixed order: first the samples, then the room for the dictionary, then the
numbers. -/

namespace ZstCodec.Session

/-- A list of samples; all must have a length before any must be bytes. -/
def samplesOf : Value → Except Failure (List ByteArray)
  | .list xs => do
    if xs.any (·.length?.isNone) then throw .wrongType
    xs.mapM fun
      | .bytes .constant b => .ok b
      | _ => .error .samplesNotBytes
  | _ => .error .wrongType

def toPart (v : Value) : Except Failure Float :=
  match v.number? with
  | none => .error .wrongType
  | some (n, places) =>
    let x := Float.ofScientific n.natAbs true places
    .ok (if n < 0 then -x else x)

/-- Choose what is left out, unless the search itself is told how to go about it. -/
def orChosen (chosen : Bool) (v : Value) (n : Int) : Value := if chosen && ! v.truth then .int n else v

def trainDictionary (size samples : Value) (a : Args) : SessionM HeldDictionary := do
  a.check [] ["k", "d", "f", "split_point", "accel", "notifications", "dict_id", "level", "steps", "threads"]
  let get_ (name : String) : Value := a.getD name (.int 0)
  match samples with
  | .list _ => pure ()
  | _ => throw .wrongType
  let threads ← threadCount (← get).processors (get_ "threads")
  let chosen := ! (get_ "steps").truth && ! threads.truth
  let samples ← samplesOf samples
  let capacity ← size.toRoom
  let k ← (get_ "k").toUnsigned
  let d ← (orChosen chosen (get_ "d") 8).toUnsigned
  let f ← (get_ "f").toUnsigned
  let steps ← (orChosen chosen (get_ "steps") 4).toUnsigned
  let _ ← threads.toUnsigned
  let split ← toPart (get_ "split_point")
  let accel ← (get_ "accel").toUnsigned
  let _ ← (get_ "notifications").toUnsigned
  let id ← (get_ "dict_id").toUnsigned
  let level ← (orChosen chosen (get_ "level") 3).toWord
  let _ ← size.toSize
  match Training.Request.train { k, d, f, steps, split, accel, id, level } capacity (.ofList samples) with
  | .error e => throw (.codec .training e)
  | .ok t => return { bytes := t.dictionary, type := .full, k := .int t.k, d := .int t.d }

end ZstCodec.Session
