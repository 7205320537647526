import ZstCodec.Pipe.Device
import ZstCodec.Frame.Query

/-! # Values of a session

Steps pass loosely typed values. How an operation takes what it needs decides which failure a wrong value gives:

* **C numbers.** `toWord` takes whole numbers of 32 bits, `toSize` those of 64 bits without sign; others are a wrong
  type or an overflow.
* **Lengths.** `toRoom` is the length of a new buffer, refused for its sign or its size.
* **Comparisons.** `less` compares any two numbers.
* **Truth.** Zero, nothing and what is empty are false. -/

namespace ZstCodec.Session

open Pipe

/-- How bytes are held. -/
inductive BytesForm where
  | constant
  | mutable
  | view
  deriving DecidableEq, Repr

/-- A device as a step describes it. -/
structure DeviceSpec where
  writes : Bool
  tag : String
  data : ByteArray := .empty
  most : Option Nat := none
  failAt : Option Nat := none
  fileno : Option Int := none
  without : List String := []
  file : Option String := none

/-- Kinds of objects, as they are shown. -/
inductive ObjectKind where
  | settings | dictionary | compressor | decompressor
  | compressObject | compressWriter | compressReader | chunker
  | decompressObject | decompressWriter | decompressReader
  | generator | text
  | buffer | collection | segment | segmentList
  | method
  deriving DecidableEq, Repr

inductive Value where
  | none
  | bool (b : Bool)
  | int (n : Int)
  | decimal (digits : Int) (places : Nat)
  | text (s : String)
  | bytes (form : BytesForm) (b : ByteArray)
  | list (xs : List Value)
  | map (fields : List (String × Value))
  | device (d : DeviceSpec)
  | path (name : String)
  | named (name : String)
  -- Only in answers
  | object (kind : ObjectKind)
  | frame (p : Frame.Parameters)
  | segment (offset : Nat) (b : ByteArray)
  | segments (b : ByteArray)
  | stop
  deriving Inhabited

/-- Arguments by name. -/
abbrev Args := List (String × Value)

namespace Value

def ofBytes (b : ByteArray) : Value := .bytes .constant b

def ofNat (n : Nat) : Value := .int n

def whole? : Value → Option Int
  | int n => some n
  | bool b => some (if b then 1 else 0)
  | _ => Option.none

def number? : Value → Option (Int × Nat)
  | decimal n places => some (n, places)
  | v => v.whole?.map (·, 0)

def compareWith (v : Value) (n : Int) : Except Failure Ordering :=
  match v.number? with
  | Option.none => .error .wrongType
  | some (m, places) => .ok (compare m (n * 10 ^ places))

def less (v : Value) (n : Int) : Except Failure Bool := return (← v.compareWith n) == .lt

def greater (v : Value) (n : Int) : Except Failure Bool := return (← v.compareWith n) == .gt

def isNumber (v : Value) (n : Int) : Bool :=
  match v.compareWith n with
  | .ok .eq => true
  | _ => false

def lessThan (v w : Value) : Except Failure Bool :=
  match v.number?, w.number? with
  | some (m, p), some (n, q) => .ok (m * 10 ^ q < n * 10 ^ p)
  | _, _ => .error .wrongType

def truth : Value → Bool
  | none => false
  | bool b => b
  | int n => n ≠ 0
  | decimal n _ => n ≠ 0
  | text s => s ≠ ""
  | bytes _ b => b.size ≠ 0
  | list xs => ! xs.isEmpty
  | map fs => ! fs.isEmpty
  | _ => true

def toWord (v : Value) : Except Failure Int :=
  match v.whole? with
  | Option.none => .error .wrongType
  | some n => if -2 ^ 31 ≤ n ∧ n < 2 ^ 31 then .ok n else .error .overflow

def toUnsigned (v : Value) : Except Failure Nat :=
  match v.whole? with
  | Option.none => .error .wrongType
  | some n => if 0 ≤ n ∧ n < 2 ^ 32 then .ok n.toNat else .error .overflow

def toSize (v : Value) : Except Failure Nat :=
  match v.whole? with
  | Option.none => .error .wrongType
  | some n => if 0 ≤ n ∧ n < 2 ^ 64 then .ok n.toNat else .error .overflow

def roomLimit : Nat := 2 ^ 36

def toRoom (v : Value) : Except Failure Nat :=
  match v.whole? with
  | some n =>
    if 2 ^ 63 ≤ n ∨ n < -2 ^ 63 then .error .overflow
    else if n < 0 then .error .negativeLength
    else if (roomLimit : Int) ≤ n then .error .memory
    else .ok n.toNat
  | Option.none => match v with
    | list [] => .ok 0
    | _ => .error .wrongType

def unknownSize : Nat := 2 ^ 64 - 1

def toPledge (v : Value) : Except Failure (Option Nat) := do
  if ← v.less 0 then return Option.none
  let n ← v.toSize
  return if n = unknownSize then Option.none else some n

def toBytes : Value → Except Failure ByteArray
  | bytes _ b => .ok b
  | _ => .error .wrongType

def shown : Value → String
  | none => "None"
  | bool b => if b then "True" else "False"
  | int n => toString n
  | text s => Failure.quoted s
  | _ => ""

def length? : Value → Option Nat
  | text s => some s.length
  | bytes _ b => some b.size
  | list xs => some xs.length
  | map fs => some fs.length
  | _ => Option.none

def hasItems : Value → Bool
  | text _ | bytes .. | list _ | map _ => true
  | _ => false

end Value

/-! ### Arguments -/

namespace Args

def get? (a : Args) (name : String) : Option Value := a.lookup name

def getD (a : Args) (name : String) (v : Value) : Value := (a.lookup name).getD v

def check (a : Args) (required optional : List String) : Except Failure Unit := do
  if a.any fun (name, _) => ! (required.contains name || optional.contains name) then throw .wrongType
  if required.any fun name => (a.lookup name).isNone then throw .wrongType

end Args

/-! ### Devices -/

namespace DeviceSpec

def kind (d : DeviceSpec) : Kind :=
  match d.file with
  | some name => .file name
  | none => .noted d.tag

def giver (d : DeviceSpec) : Giver :=
  { kind := d.kind
    data := d.data
    most := fun _ => d.most
    failAt := d.failAt
    canRead := ! d.writes && ! d.without.contains "read"
    canClose := ! d.without.contains "close"
    fileno := d.fileno }

def sink (d : DeviceSpec) : Sink :=
  { kind := d.kind
    outage := d.failAt.map fun k => { write := (k ≤ ·) }
    canWrite := d.writes && ! d.without.contains "write"
    canFlush := d.writes && ! d.without.contains "flush"
    canClose := ! d.without.contains "close"
    fileno := d.fileno }

end DeviceSpec

namespace Value

def source : Value → Source
  | bytes _ b => .buffer b
  | device d => .device d.giver
  | v => .other v.length? v.hasItems

def sink : Value → Sink
  | device d => d.sink
  | _ => { canWrite := false, canFlush := false, canClose := false }

end Value

end ZstCodec.Session
