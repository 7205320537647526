import ZstCodec.Proofs.Compress.Run

/-! # The room of a compressor

A call that brings no content with the end of a frame writes no more than it has room for, whatever the compressor has
been used for. -/

namespace ZstCodec.Compress

variable {c : Call} {n : Nat}

namespace Writer

variable {w w' : Writer} {b out : ByteArray}

theorem size_ending_le (w : Writer) (b : ByteArray) (i : Nat) (out : ByteArray) : (w.ending b i out).size ≤ out.size + 7 := by
  grind [ending, size_putLe, Block.Header.write]

theorem size_add_le (h : w.add place b last = (w', .ok out)) (h0 : b.size = 0) : out.size ≤ mostHeader := by
  unfold add at h
  rw [if_pos h0] at h
  split at h <;> cases h
  split
  · exact size_header_le _
  · exact Nat.zero_le _

/-- The end of a frame without further content is short. -/
theorem size_finishAtOnce_le (h : w.finishAtOnce b = (w', .ok out)) (h0 : b.size = 0) : out.size ≤ bound 0 := by
  have hbound : bound 0 = mostHeader + 46 := rfl
  have hfinish (place : Int) (h : w.finish place b = (w', .ok out)) : out.size ≤ bound 0 := by
    rcases hadd : w.add place b true with ⟨v, e | bytes⟩
    · grind [finish]
    · have := size_add_le hadd h0
      have := v.size_ending_le v.finder.content v.origin bytes
      grind [finish]
  unfold finishAtOnce at h
  split at h
  · split at h
    · rw [finishInJobs, h0, writeJobs, h0, Nat.zero_min, decide_eq_true rfl] at h
      rcases hadd : w.add directPlace (slice b 0 0) true with ⟨v, e | bytes⟩ <;> rw [hadd] at h <;> cases h
      have := size_add_le hadd (by simp)
      have := v.size_ending_le b 0 (.empty ++ bytes)
      rw [empty_append] at *
      omega
    · exact hfinish _ h
  · exact hfinish _ h

end Writer

/-- A call with room for `n` bytes in all, which brings no content with the end of a frame. -/
def Call.Plain (c : Call) (n : Nat) : Prop := c.out.size + c.free = n ∧ (c.directive ≠ .finish ∨ c.input.size ≤ c.pos)

namespace Running

theorem stepFlush_plain (r : Running) (h : c.Plain n) : (r.stepFlush c).call.Plain n := by
  obtain ⟨r', c', w, hp, hpos, -, -, -, hcase⟩ := r.stepFlush_spec c
  have : c'.Plain n := ⟨hp.room.trans h.1, by rw [hp.directive, hp.input, hpos]; exact h.2⟩
  rcases hcase with ⟨-, -, heq⟩ | ⟨-, -, heq⟩ <;> rwa [heq]

theorem stepLoad_plain (r : Running) (h : c.Plain n) : (r.stepLoad c).call.Plain n := by
  have hpos (k : Nat) : Call.Plain { c with pos := c.pos + k } n := ⟨h.1, h.2.imp id Nat.le_add_right_of_le⟩
  unfold stepLoad
  dsimp only
  split
  · rename_i hend
    simp only [Bool.and_eq_true, decide_eq_true_eq] at hend
    have hrest : c.input.size ≤ c.pos := h.2.resolve_left (not_not.2 hend.1.1)
    rcases hw : r.writer.finishAtOnce (slice c.input c.pos c.input.size) with ⟨w, e | bytes⟩
    · exact h
    · have := Writer.size_finishAtOnce_le hw (by simp [hrest])
      have hle := hend.1.2
      rw [Nat.sub_eq_zero_of_le hrest] at hle
      have := h.1
      refine ⟨?_, .inr le_rfl⟩
      simp only [size_append]
      omega
  · split
    · exact hpos _
    · split
      · exact hpos _
      · unfold stepWrite
        dsimp only
        split
        · exact hpos _
        · exact stepFlush_plain _ (hpos _)

theorem steps_plain (fuel : Nat) (r : Running) (h : c.Plain n) : (r.steps c fuel).call.Plain n := by
  induction fuel generalizing r c with
  | zero => exact h
  | succ fuel ih =>
    have hstep : (if r.flushing then r.stepFlush c else r.stepLoad c).call.Plain n := by
      split
      · exact stepFlush_plain r h
      · exact stepLoad_plain r h
    rw [steps]
    dsimp only
    generalize (if r.flushing then r.stepFlush c else r.stepLoad c) = s at hstep ⊢
    split
    · exact hstep
    · exact ih _ hstep

end Running

theorem Context.run_room (x : Context) (free : Nat)
    (h : directive ≠ .finish ∨ input.size ≤ pos) : (x.run input pos free directive).2.out.size ≤ free := by
  have hplain (r : Running) := (r.steps_plain (2 * (input.size - pos) + 8) (c := ⟨input, pos, free, directive, .empty⟩) ⟨Nat.zero_add _, h⟩).1
  unfold run
  dsimp only
  split
  · exact Nat.zero_le _
  · split
    · exact Nat.zero_le _
    · exact Nat.le.intro (hplain _)

end ZstCodec.Compress
