/-! # A generator of random numbers

The Mersenne twister: after every 624 draws the state of 624 words is *twisted*; drawn words are *tempered*.

* **Seeds** are lists of words, mixed into a fixed initial state.
* **Below a bound.** As many of the highest bits are taken as the bound has, again until the number is below it.
* **Samples** are drawn without repetition: a small population is shuffled as far as needed; in a large one, places
  drawn before are passed over. -/

namespace ZstCodec.Random

def words : Nat := 624

structure Twister where
  state : Array UInt32
  used : Nat

namespace Twister

def at_ (s : Array UInt32) (i : Nat) : UInt32 := s.getD i 0

def initial (seed : UInt32) : Array UInt32 :=
  (List.range (words - 1)).foldl
    (fun s i =>
      let x := at_ s i
      s.push ((x ^^^ (x >>> 30)) * 1812433253 + (i + 1).toUInt32))
    #[seed]

def mixSeed (key : Array UInt32) (s : Array UInt32) (i j : Nat) : Nat → Array UInt32 × Nat
  | 0 => (s, i)
  | n + 1 =>
    let x := at_ s (i - 1)
    let s := s.setIfInBounds i ((at_ s i ^^^ ((x ^^^ (x >>> 30)) * 1664525)) + at_ key j + j.toUInt32)
    let (s, i) := if words ≤ i + 1 then (s.setIfInBounds 0 (at_ s (words - 1)), 1) else (s, i + 1)
    mixSeed key s i (if key.size ≤ j + 1 then 0 else j + 1) n

def mixOn (s : Array UInt32) (i : Nat) : Nat → Array UInt32
  | 0 => s
  | n + 1 =>
    let x := at_ s (i - 1)
    let s := s.setIfInBounds i ((at_ s i ^^^ ((x ^^^ (x >>> 30)) * 1566083941)) - i.toUInt32)
    let (s, i) := if words ≤ i + 1 then (s.setIfInBounds 0 (at_ s (words - 1)), 1) else (s, i + 1)
    mixOn s i n

def ofSeed (key : Array UInt32) : Twister :=
  let (s, i) := mixSeed key (initial 19650218) 1 0 (max words key.size)
  { state := (mixOn s i (words - 1)).setIfInBounds 0 0x80000000, used := words }

def twist (s : Array UInt32) : Array UInt32 :=
  (List.range words).foldl
    (fun s i =>
      let y := (at_ s i &&& 0x80000000) ||| (at_ s ((i + 1) % words) &&& 0x7fffffff)
      let odd : UInt32 := if y &&& 1 = 0 then 0 else 0x9908b0df
      s.setIfInBounds i (at_ s ((i + 397) % words) ^^^ (y >>> 1) ^^^ odd))
    s

def temper (y : UInt32) : UInt32 :=
  let y := y ^^^ (y >>> 11)
  let y := y ^^^ ((y <<< 7) &&& 0x9d2c5680)
  let y := y ^^^ ((y <<< 15) &&& 0xefc60000)
  y ^^^ (y >>> 18)

def next (t : Twister) : UInt32 × Twister :=
  let t := if words ≤ t.used then { state := twist t.state, used := 0 } else t
  (temper (at_ t.state t.used), { t with used := t.used + 1 })

def bitLength (n : Nat) : Nat := if n = 0 then 0 else n.log2 + 1

/-- Draw numbers of `bits` bits until one is below `n`. -/
def drawBelow (t : Twister) (n bits : Nat) : Nat → Nat × Twister
  | 0 => (0, t)
  | fuel + 1 =>
    let (y, t) := t.next
    let r := (y >>> (32 - bits).toUInt32).toNat
    if r < n then (r, t) else drawBelow t n bits fuel

def drawLimit : Nat := 100000

def below (t : Twister) (n : Nat) : Nat × Twister := if n = 0 then (0, t) else t.drawBelow n (bitLength n) drawLimit

def shuffled (t : Twister) (pool : Array Nat) (n : Nat) (drawn : List Nat) : Nat → List Nat
  | 0 => drawn.reverse
  | k + 1 =>
    let (j, t) := t.below n
    shuffled t (pool.setIfInBounds j (pool.getD (n - 1) 0)) (n - 1) (pool.getD j 0 :: drawn) k

def fresh (t : Twister) (n : Nat) (drawn : List Nat) : Nat → Nat × Twister
  | 0 => (0, t)
  | fuel + 1 =>
    let (j, t) := t.below n
    if drawn.contains j then fresh t n drawn fuel else (j, t)

def picked (t : Twister) (n : Nat) (drawn : List Nat) : Nat → List Nat
  | 0 => drawn.reverse
  | k + 1 =>
    let (j, t) := t.fresh n drawn drawLimit
    picked t n (j :: drawn) k

def powerOfFour (n power : Nat) : Nat → Nat
  | 0 => power
  | fuel + 1 => if n ≤ power then power else powerOfFour n (4 * power) fuel

def poolLimit (k : Nat) : Nat := 21 + if 5 < k then powerOfFour (3 * k) 1 (3 * k) else 0

def sample (t : Twister) (n k : Nat) : List Nat :=
  if n ≤ poolLimit k then t.shuffled (Array.range n) n [] k else t.picked n [] k

end Twister

end ZstCodec.Random
