import ZstCodec.Proofs.Compress.Due
import ZstCodec.Compress.Iterator
import ZstCodec.Compress.StreamReader

/-! # Iterators and readers over a compressor

Iterators and readers ask their source for input when output is asked of them. Between two calls something of the frame
is still due; a call gives a piece of it, and nothing only if nothing was due. -/

namespace ZstCodec.Compress

open Pipe Pipe.Act

variable {s : Settings} {D : DictionaryChoice} {R : ByteArray} {room : Nat}

variable {b input rest : ByteArray} {pos : Nat}

/-! ### Iterators -/

namespace Iterator

variable {d d' : Desk Context Iterator}

/-- What the source has still to give. -/
inductive Supply (d : Desk Context Iterator) : ByteArray → Prop
  | device {g : Giver} : d.source = .device g → g.Steady → Supply d g.left
  | buffer {b : ByteArray} {n : Nat} : d.source = .buffer b → d.object.offset = n → n ≤ b.size → Supply d (slice b n b.size)

theorem Supply.whole (hs : d.source = .buffer b) (ho : d.object.offset = 0) : Supply d b := by
  have h := Supply.buffer (n := 0) hs ho (Nat.zero_le _)
  rwa [slice_all] at h

theorem Supply.size_le (h : Supply d rest) : rest.size ≤ d.source.rest := by
  cases h with
  | device hs _ =>
    rw [hs, Giver.size_left]
  | buffer hs _ _ =>
    rw [hs, size_slice_of_le le_rfl]
    exact Nat.sub_le _ _

theorem Supply.congr (h : Supply d rest) (hs : d'.source = d.source) (ho : d'.object.offset = d.object.offset) : Supply d' rest := by
  cases h with
  | device h hg => exact .device (hs.trans h) hg
  | buffer h hn hle => exact .buffer (hs.trans h) (ho.trans hn) hle

def Sized (d : Desk Context Iterator) (room : Nat) : Prop := d.object.room = .ok room ∧ 1 ≤ d.object.readSize ∧ Buffered.held d.object = .empty

/-- The output `R` is still to come. -/
def Waits (d : Desk Context Iterator) (room : Nat) (s : Settings) (D : DictionaryChoice) (R : ByteArray) : Prop :=
  Sized d room ∧ ((∃ input pos rest, d.object.phase = .feeding input pos ∧ Supply d rest ∧
      d.codec.Due s D ((slice input pos input.size).data.toList ++ rest.data.toList) R) ∨
    ∃ n, d.object.phase = .ending n ∧ (n = 0 ∧ R = .empty ∨ n ≠ 0 ∧ d.codec.Due s D [] R))

variable {fuel : Nat}

def Next (d : Desk Context Iterator) (b : Option ByteArray) (d' : Desk Context Iterator) : Prop := next.Gives d b d'

end Iterator

/-! ### Readers -/

namespace StreamReader

variable {d d' : Desk Context StreamReader}

/-- What the source has still to give. Bytes in memory are taken as a whole. -/
inductive Supply (d : Desk Context StreamReader) : ByteArray → Prop
  | device {g : Giver} : d.source = .device g → g.Steady → Supply d g.left
  | unread {b : ByteArray} : d.source = .buffer b → b.size ≠ 0 → d.object.input = .empty → Supply d b
  | read {b : ByteArray} : d.source = .buffer b → d.object.input = b → d.object.pos < b.size → Supply d .empty

/-- The input has ended, and the end of the frame gives `R`. -/
structure Ends (d : Desk Context StreamReader) (s : Settings) (D : DictionaryChoice) (R : ByteArray) : Prop where
  finished : d.object.finishedInput = true
  input : d.object.input = .empty
  pos : d.object.pos = 0
  due : d.codec.Due s D [] R

/-- The input goes on: what is at hand, then what the source has still to give. -/
structure Feeds (d : Desk Context StreamReader) (s : Settings) (D : DictionaryChoice) (R : ByteArray) : Prop where
  unfinished : d.object.finishedInput = false
  readSize : 1 ≤ d.object.readSize
  due : ∃ left, Supply d left ∧ d.codec.Due s D ((slice d.object.input d.object.pos d.object.input.size).data.toList ++ left.data.toList) R

def UsedUp (d : Desk Context StreamReader) : Prop := d.object.input = .empty ∧ d.object.pos = 0

/-- The output `R` is still to come of the compressor. -/
def Comes (d : Desk Context StreamReader) (s : Settings) (D : DictionaryChoice) (R : ByteArray) : Prop :=
  Ends d s D R ∨ Feeds d s D R ∧ (UsedUp d ∨ d.object.pos < d.object.input.size)

/-- An operation has added `b` to the output of the call at hand. -/
structure Adds (d : Desk Context StreamReader) (b : ByteArray) (d' : Desk Context StreamReader) : Prop where
  out : d'.object.out = d.object.out ++ b
  closed : d'.object.closed = d.object.closed
  finished : d'.object.finishedOutput = d.object.finishedOutput

theorem Adds.refl (d : Desk Context StreamReader) : Adds d .empty d := ⟨append_empty.symm, rfl, rfl⟩

theorem Adds.trans (h : Adds d b d') (h' : Adds d' c d'') : Adds d (b ++ c) d'' :=
  ⟨by rw [h'.out, h.out, append_assoc], h'.closed.trans h.closed, h'.finished.trans h.finished⟩

/-- Reading on has stopped with output, or at the end of the input. -/
def Stopped (room : Nat) (s : Settings) (D : DictionaryChoice) (R : ByteArray) (d : Desk Context StreamReader) (stop : Bool)
    (d' : Desk Context StreamReader) : Prop :=
  ∃ b R', Adds d b d' ∧ Comes d' s D R' ∧ b ++ R' = R ∧
    (stop = true ∧ d'.object.out.size ≠ 0 ∧ d'.object.out.size ≤ room ∨ stop = false ∧ d'.object.out.size < room ∧ Ends d' s D R')

theorem Stopped.after (h : Stopped room s D R' d' stop d'') (hadds : Adds d b d')
    (hjoin : b ++ R' = R) : Stopped room s D R d stop d'' := by
  obtain ⟨b', R'', hadds', hcomes, hjoin', hcase⟩ := h
  exact ⟨b ++ b', R'', hadds.trans hadds', hcomes, by rw [append_assoc, hjoin', hjoin], hcase⟩

/-- The output `R` is still to come of an open reader. -/
def Owes (d : Desk Context StreamReader) (s : Settings) (D : DictionaryChoice) (R : ByteArray) : Prop :=
  d.object.closed = false ∧ (d.object.finishedOutput = true ∧ R = .empty ∨ d.object.finishedOutput = false ∧ Comes d s D R)

theorem Supply.size_le (h : Supply d left) : left.size ≤ d.source.rest := by
  cases h with
  | device hs _ => rw [hs, Giver.size_left]
  | unread hs _ _ => rw [hs]; exact le_rfl
  | read _ _ _ => exact Nat.zero_le _

end StreamReader

end ZstCodec.Compress
