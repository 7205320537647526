import ZstCodec.Proofs.Compress.Agreement
import ZstCodec.Proofs.Session.RoundTrip

/-! # Frames of one block

A stream collects its input before it writes a block, while a call with all of the input writes the frame directly. The
two agree for one block: a stream that was promised one waits for the end of the frame (`take_one_block`), and where the
first piece lies makes no difference (`Bare.finish`). -/

namespace ZstCodec.Compress

open Match

variable {s : Settings} {data : ByteArray}

namespace Writer

variable {w : Writer} {place place' : Int}

/-! ### The first piece -/

/-- Nothing stands before the first piece but what is one segment already. -/
structure Bare (w : Writer) : Prop where
  places : w.places = .nowhere
  start : w.finder.start = w.finder.content.size
  long : ∀ l, w.longDistance = some l → l.start = w.finder.content.size

theorem bounds_first (older place n : Int) (size low : Nat) : bounds true older place n size low size = (size, size) := by
  have h := overwrite_spec older place n (le_refl size)
  have heq : overwrite older place n size size = size := by omega
  rw [bounds, if_pos rfl, turnOver_self]
  exact Prod.ext heq rfl

section

variable (h : w.Bare) (hplace : 0 ≤ place) (hplace' : 0 ≤ place') (piece : ByteArray)

include h hplace hplace' piece

theorem Bare.extend :
    ∃ p, w.extend place piece = { w.extend place' piece with places := p } := by
  have hlong (older place n : Int) : (w.longDistance.map fun l =>
      { l with low := (bounds true older place n w.finder.content.size l.low l.start).1
               start := (bounds true older place n w.finder.content.size l.low l.start).2 }) =
      w.longDistance.map fun l => { l with low := w.finder.content.size, start := w.finder.content.size } := by
    refine Option.map_congr fun l hl => ?_
    rw [h.long l hl, bounds_first]
  have hfresh {place : Int} (hplace : 0 ≤ place) : decide (place ≠ w.places.next) = true := by
    rw [h.places, decide_eq_true_eq]
    intro heq
    rw [heq] at hplace
    exact absurd hplace (by decide)
  simp_all [Writer.extend, bounds_first, start]

theorem Bare.add (last : Bool) :
    ∃ p, w.add place piece last = ({ (w.add place' piece last).1 with places := p }, (w.add place' piece last).2) := by
  by_cases hs : w.stage = .created
  · refine ⟨w.places, ?_⟩
    unfold Writer.add
    rw [if_pos hs, if_pos hs]
  by_cases h0 : piece.size = 0
  · simp_all [add_empty]
  obtain ⟨p, hp⟩ := Bare.extend (w := { w with stage := w.opened }) ⟨h.places, h.start, h.long⟩ hplace hplace' piece
  refine ⟨p, ?_⟩
  rw [add_eq place last hs h0, add_eq place' last hs h0, hp]
  generalize Writer.extend _ place' piece = e
  -- both are `e` with something aside
  have hself := writeBlocks_put e.aside (e.finder.content.size - piece.size) last w.opening piece.size e
  have hother : ({ e with places := p } : Writer).writeBlocks last w.opening (e.finder.content.size - piece.size) piece.size = _ :=
    writeBlocks_put { e.aside with places := p } _ last w.opening piece.size e
  rw [put_aside] at hself
  dsimp only
  rw [hself, hother]
  rfl

/-- Where the first piece of a frame lies makes no difference to what is written. -/
theorem Bare.finish :
    (w.finish place piece).2 = (w.finish place' piece).2 := by
  obtain ⟨p, hp⟩ := h.add hplace hplace' piece true
  unfold Writer.finish
  rw [hp]
  generalize w.add place' piece true = r
  obtain ⟨w', _ | out⟩ := r
  · rfl
  · dsimp only
    rcases w'.plan.pledged with _ | n
    · rfl
    · dsimp only
      split <;> rfl

end

end Writer

namespace Context

end Context

end ZstCodec.Compress
