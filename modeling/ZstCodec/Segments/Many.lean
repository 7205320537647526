import ZstCodec.Segments.Packing
import ZstCodec.Compress.Stream
import ZstCodec.Decompress.Stream
import ZstCodec.Frame.Query

/-! # Compressing and decompressing many inputs

Every worker has a codec of its own, with the settings and the dictionary of the one that was asked. The failure of an
earlier worker comes first. -/

namespace ZstCodec.Segments

def Share.part {α : Type} (s : Share) (xs : List α) : List α := (xs.drop s.first).take s.count

/-! ### Compressing -/

def expectedRatio : Nat := 16

def compressItem (i : Nat) (b : ByteArray) (room : Nat) (x : Compress.Context) :
    Except Failure (ByteArray × Compress.Context) :=
  let (x, o) := { x with pledged := some b.size }.run b 0 room .finish
  match o.result with
  | .error e => .error (.codec (.compressingItem i) e)
  | .ok waiting => if waiting ≠ 0 then .error (.itemNoSpace i) else .ok (o.out, x)

def compressShare (x : Compress.Context) (inputs : List ByteArray) (s : Share) : Except Failure (List Buffer) :=
  packAll (fun b => Compress.bound b.size) compressItem (s.bytes / expectedRatio) x s.first (s.part inputs)

def compressMany (x : Compress.Context) (workers : Nat) (inputs : List ByteArray) : Except Failure Collection := do
  if inputs.isEmpty then throw .noElements
  if inputs.all (·.size = 0) then throw .emptyElements
  let buffers ← (shares workers (inputs.map (·.size))).mapM (compressShare x.reset inputs)
  Collection.ofBuffers buffers.flatten

/-! ### Decompressing -/

/-- A frame and the size of its content, zero if the frame has to tell. -/
structure Framed where
  frame : ByteArray
  size : Nat

def contentSizeOf (i : Nat) (f : Framed) : Except Failure Nat :=
  if f.size ≠ 0 then .ok f.size
  else match Frame.contentSize f.frame with
    | .known n => .ok n
    | _ => .error (.itemSizeUnknown i)

def roomLimit : Nat := 2 ^ 36

def decompressItem (i : Nat) (f : Framed) (_room : Nat) (s : Decompress.Stream) :
    Except Failure (ByteArray × Decompress.Stream) :=
  let ⟨frame, size⟩ := f
  if roomLimit ≤ size then .error .memory
  else
    let (s, o) := s.run frame 0 size
    match o.result with
    | .error e => .error (.codec (.item i) e)
    | .ok hint => if hint ≠ 0 ∨ o.out.size ≠ size then .error (.itemSize i o.out.size size) else .ok (o.out, s)

def decompressShare (dict : Option Decompress.Dictionary) (inputs : List Framed) (s : Share) : Except Failure (List Buffer) := do
  let items ← ((s.part inputs).mapIdx fun i f => (s.first + i, f)).mapM fun (i, f) => return { f with size := ← contentSizeOf i f }
  let buffers ← packAll (·.size) decompressItem s.bytes ({ dict } : Decompress.Stream) s.first items
  if buffers.any (·.data.size = 0) then throw .memory
  return buffers

/-- Decode every frame, with the dictionary given and the default limit of windows. -/
def decompressMany (dict : Option Decompress.Dictionary) (workers : Nat) (inputs : List Framed) :
    Except Failure Collection := do
  let buffers ← (shares workers (inputs.map (·.frame.size))).mapM (decompressShare dict inputs)
  Collection.ofBuffers buffers.flatten

end ZstCodec.Segments
