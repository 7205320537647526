import ZstCodec.Segments.Buffer

/-! # Sharing work and packing results

* **Sharing.** Every worker but the last gets inputs in order until it has its part of all bytes; the last gets the
  rest, unless there are no bytes in it.
* **Packing.** A result is put behind the one before it if there is as much room as it may need. Otherwise a new buffer
  is begun, of a size that fits the work as a whole. -/

namespace ZstCodec.Segments

/-- Inputs of one worker: `count` of them from `first` on, with `bytes` bytes in all. -/
structure Share where
  first : Nat
  count : Nat
  bytes : Nat
  deriving DecidableEq, Repr

/-- Share out inputs of the given sizes to `workers` more, of which the first has `s` already. -/
def shareFrom (goal : Nat) (s : Share) (workers : Nat) : List Nat → List Share
  | [] => if s.bytes = 0 then [] else [s]
  | n :: rest =>
    let s := { s with count := s.count + 1, bytes := s.bytes + n }
    if 1 < workers ∧ goal ≤ s.bytes then
      s :: shareFrom goal { first := s.first + s.count, count := 0, bytes := 0 } (workers - 1) rest
    else shareFrom goal s workers rest

def shares (workers : Nat) (sizes : List Nat) : List Share :=
  let workers := min sizes.length workers
  shareFrom (totalOf sizes / workers) { first := 0, count := 0, bytes := 0 } workers sizes

def smear (n : Nat) : Nat := [1, 2, 4, 8, 16].foldl (fun n k => n ||| n >>> k) n

/-- Up to `2 ^ 32`, the least power of two not below `n`, or zero. Of larger numbers only the highest 32 bits are rounded
up. -/
def roundUp (n : Nat) : Nat := if n = 0 then 0 else smear (n - 1) + 1

/-- The size of a new buffer for `work` bytes whose next result may need `need`. -/
def bufferSize (work need : Nat) : Nat := if roundUp work < need then roundUp need else roundUp work

/-- Buffers being filled. The one at hand has a table of segments, whose first is that of the result `first`. -/
structure Packing where
  full : List Buffer := []
  size : Nat
  data : ByteArray := .empty
  first : Nat
  table : Array Segment

namespace Packing

/-- A new buffer for the results from `i` up to `stop`, the next of which may need `need`. -/
def fresh (full : List Buffer) (work need i stop : Nat) : Packing :=
  { full, size := bufferSize work need, first := i, table := Array.replicate (stop - i) ⟨0, 0⟩ }

def room (p : Packing) : Nat := p.size - p.data.size

/-- The buffer at hand, with the first `n` segments of its table. -/
def cut (p : Packing) (n : Nat) : Buffer := { data := p.data, segments := p.table.toList.take n }

def prepare (p : Packing) (work need i stop : Nat) : Packing :=
  if p.room < need then fresh (p.cut (i - p.first) :: p.full) work need i stop else p

def push (p : Packing) (i : Nat) (b : ByteArray) : Packing :=
  let ⟨full, size, data, first, table⟩ := p
  { full, size, data := data ++ b, first, table := table.setIfInBounds (i - first) { offset := data.size, length := b.size } }

def buffers (p : Packing) : List Buffer := (p.cut p.table.size :: p.full).reverse

end Packing

/-- Pack results from `i` up to `stop`: `need` tells the room each may need, and `make` makes it; the state is handed on. -/
def packFrom {α σ ε : Type} (need : α → Nat) (make : Nat → α → Nat → σ → Except ε (ByteArray × σ)) (work stop : Nat) (s : σ)
    (p : Packing) (i : Nat) : List α → Except ε (List Buffer)
  | [] => .ok p.buffers
  | a :: rest => do
    let p := p.prepare work (need a) i stop
    let (b, s) ← make i a p.room s
    packFrom need make work stop s (p.push i b) (i + 1) rest

def packAll {α σ ε : Type} (need : α → Nat) (make : Nat → α → Nat → σ → Except ε (ByteArray × σ)) (work : Nat) (s : σ) (i : Nat)
    (items : List α) : Except ε (List Buffer) :=
  let stop := i + items.length
  packFrom need make work stop s (.fresh [] work ((items.head?.map need).getD 0) i stop) i items

end ZstCodec.Segments
