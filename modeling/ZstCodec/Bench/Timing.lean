import ZstCodec.Failure
import ZstCodec.Number.Double

/-! # Timing

Work is repeated until it has been done a number of times and for a length of time. The best round counts. -/

namespace ZstCodec.Bench

open Number

/-- Where benchmarks run: what tells the time, does the work and shows results. -/
structure Host (m : Type → Type) where
  wall : m Rat
  processor : m (Rat × Rat)
  perform : (Unit → Except Failure Unit) → m (Except Failure Unit)
  print : String → m Unit

/-- Times of one round. -/
structure Round where
  cpu : Rat
  user : Rat
  system : Rat
  wall : Rat
  deriving DecidableEq, Repr

def Round.before (a b : Round) : Bool :=
  if a.cpu ≠ b.cpu then a.cpu < b.cpu
  else if a.user ≠ b.user then a.user < b.user
  else if a.system ≠ b.system then a.system < b.system
  else a.wall < b.wall

/-- How long to go on. -/
structure Patience where
  rounds : Rat := 3
  wall : Rat := 3
  deriving DecidableEq, Repr

variable {m : Type → Type} [Monad m]

def timeRound (host : Host m) (work : Unit → Except Failure Unit) : m (Except Failure (Round × Rat)) := do
  let start ← host.wall
  let (user, system) ← host.processor
  match ← host.perform work with
  | .error e => return .error e
  | .ok () =>
    let (user', system') ← host.processor
    let stop ← host.wall
    let user := sub user' user
    let system := sub system' system
    return .ok ({ cpu := add user system, user, system, wall := sub stop start }, stop)

def timeRounds (host : Host m) (p : Patience) (work : Unit → Except Failure Unit) (began : Rat) (rounds : List Round) :
    Nat → m (Except Failure (List Round))
  | 0 => return .ok rounds.reverse
  | fuel + 1 => do
    match ← timeRound host work with
    | .error e => return .error e
    | .ok (r, stop) =>
      let rounds := r :: rounds
      if (rounds.length : Rat) < p.rounds || sub stop began < p.wall then timeRounds host p work began rounds fuel
      else return .ok rounds.reverse

def roundLimit : Nat := 1000000

def time (host : Host m) (p : Patience) (work : Unit → Except Failure Unit) : m (Except Failure (List Round)) := do
  timeRounds host p work (← host.wall) [] roundLimit

def best? : List Round → Option Round
  | [] => none
  | r :: rs => some (rs.foldl (fun best r => if r.before best then r else best) r)

def report (rounds : List Round) (title label : String) (size : Int) : Except Failure (List String) :=
  match best? rounds with
  | none => .error (.value "min() arg is an empty sequence")
  | some best =>
    if best.wall = 0 then .error .divisionByZero
    else
      let rate := div (div (double size) best.wall) 1000000
      let seconds := fixed 6
      .ok [label ++ " " ++ title,
        seconds best.wall ++ " wall; " ++ seconds best.cpu ++ " CPU; " ++ seconds best.user ++ " user; "
          ++ seconds best.system ++ " sys " ++ fixed 2 rate ++ " MB/s (best of " ++ toString rounds.length ++ ")"]

/-! ### A clock that runs by itself -/

/-- A clock that goes on by a tick whenever it is read, and what has been shown so far. -/
structure Simulated where
  now : Rat := 0
  tick : Rat
  shown : List String := []

def Simulated.read : StateM Simulated Rat := modifyGet fun s => (s.now, { s with now := add s.now s.tick })

/-- A host on which only reading the clock takes time. -/
def simulated : Host (StateM Simulated) where
  wall := Simulated.read
  processor := do
    let t ← Simulated.read
    return (mul (1 / 2) t, mul (1 / 4) t)
  perform work := return work ()
  print line := modify fun s => { s with shown := line :: s.shown }

end ZstCodec.Bench
