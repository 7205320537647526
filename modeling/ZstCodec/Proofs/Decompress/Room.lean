import ZstCodec.Proofs.Decompress.Frame
import ZstCodec.Decompress.Stream

/-! # The room of a decoder

Nothing is decoded beyond the room for it, be the input damaged or not, and a call that fails gives nothing. -/

namespace ZstCodec

variable {b history out : ByteArray} {room : Literals.Room} {test : Block.EndTest} {memory m : Block.Memory} {dict : Dictionary}

/-! ### Blocks -/

namespace Literals

variable {table : Option Huffman.Decoder} {lits : Section}

theorem waiting_of_read (h : read b room table = .ok lits) : lits.waiting = .apart ∨ ∃ n, lits.waiting = room.waiting n := by
  unfold read at h
  split at h
  · cases h
  dsimp only at h
  split at h
  · unfold readStored at h
    obtain ⟨-, h⟩ := ok_of_check h
    obtain ⟨-, -, h⟩ := ok_of_bind h
    obtain ⟨-, h⟩ := ok_of_check h
    cases h
    grind
  · split at h
    · unfold readRepeated at h
      obtain ⟨-, h⟩ := ok_of_check h
      obtain ⟨-, -, h⟩ := ok_of_bind h
      cases h
      exact .inr ⟨_, rfl⟩
    · unfold readCoded at h
      obtain ⟨-, h⟩ := ok_of_check h
      obtain ⟨-, h⟩ := ok_of_check h
      obtain ⟨-, h⟩ := ok_of_check h
      obtain ⟨-, h⟩ := ok_of_check h
      obtain ⟨-, h⟩ := ok_of_check h
      obtain ⟨-, h⟩ := ok_of_check h
      dsimp only at h
      split at h <;> cases h
      exact .inr ⟨_, rfl⟩

/-- Literals wait behind the output only where there is room for the largest block. -/
theorem limit_le (h : read b room table = .ok lits) (low size : Nat) :
    (Block.sequenceBounds room lits.waiting low size).limit ≤ size + room.capacity := by
  rcases waiting_of_read h with hw | ⟨n, hw⟩ <;> rw [hw]
  · exact le_rfl
  · grind [Room.waiting, Block.sequenceBounds]

end Literals

theorem Sequence.size_runRest_le {m : Bounds} (h : runRest m literals history used = .ok out) :
    out.size ≤ m.limit := by
  grind [runRest, takeOver, copySlice_end, size_slice]

theorem Block.size_decode_le (h : decode b room test memory low history = .ok (out, m)) : out.size ≤ history.size + room.capacity := by
  unfold decode at h
  obtain ⟨-, h⟩ := ok_of_check h
  obtain ⟨lits, hlits, h⟩ := ok_of_bind h
  obtain ⟨head, -, h⟩ := ok_of_bind h
  obtain ⟨-, h⟩ := ok_of_check h
  refine le_trans ?_ (Literals.limit_le hlits low history.size)
  dsimp only at h
  split at h
  · obtain ⟨_, hrest, h⟩ := ok_of_bind h
    cases h
    exact Sequence.size_runRest_le hrest
  · obtain ⟨_, -, h⟩ := ok_of_bind h
    obtain ⟨_, hall, h⟩ := ok_of_bind h
    cases h
    obtain ⟨_, -, hall⟩ := ok_of_bind hall
    obtain ⟨-, hall⟩ := ok_of_check hall
    obtain ⟨_, -, hall⟩ := ok_of_bind hall
    obtain ⟨-, hall⟩ := ok_of_check hall
    exact Sequence.size_runRest_le hall

namespace Decompress

/-! ### Frames -/

variable {format : Frame.Format} {capacity i n : Nat}

theorem size_decodeBlock_le (h : decodeBlock b i head room test memory low history = .ok (out, m)) :
    out.size ≤ history.size + room.capacity := by
  unfold decodeBlock at h
  split at h
  · grind [size_slice]
  · grind [size_pushMany]
  · exact Block.size_decode_le h

theorem size_decodeBlocks_le (fuel : Nat) (h : decodeBlocks b blockMax limit test i memory history fuel = .ok (out, n))
    (hsize : history.size ≤ limit) : out.size ≤ limit := by
  induction fuel generalizing i test memory history with
  | zero => cases h
  | succ fuel ih =>
    obtain ⟨head, -, h⟩ := ok_of_bind h
    obtain ⟨-, h⟩ := ok_of_check h
    obtain ⟨⟨history', memory'⟩, hblock, h⟩ := ok_of_bind h
    have hle := size_decodeBlock_le hblock
    dsimp only at hle h
    replace hle : history'.size ≤ limit := by omega
    split at h
    · cases h
      exact hle
    · exact ih h hle

theorem size_decodeFrame_le (h : decodeFrame format b capacity dict test = .ok (out, n)) : out.size ≤ capacity := by
  unfold decodeFrame at h
  obtain ⟨-, h⟩ := ok_of_check h
  obtain ⟨size, -, h⟩ := ok_of_bind h
  obtain ⟨-, h⟩ := ok_of_check h
  obtain ⟨opening, -, h⟩ := ok_of_bind h
  cases opening with
  | more => cases h
  | skippable => cases h
  | frame header =>
    dsimp only at h
    obtain ⟨_, -, h⟩ := ok_of_bind h
    obtain ⟨-, h⟩ := ok_of_check h
    obtain ⟨⟨history, stop⟩, hblocks, h⟩ := ok_of_bind h
    have := size_decodeBlocks_le _ hblocks (Nat.le_add_right _ _)
    have hout : out = slice history dict.content.size history.size := by
      simp only [bind, Except.bind, throw, throwThe, MonadExceptOf.throw, pure, Except.pure] at h
      grind
    rw [hout, size_slice_of_le le_rfl]
    omega

theorem size_decodeFrames_le (fuel : Nat)
    (h : decodeFrames format b capacity dict test i later before fuel = .ok out) (hsize : before.size ≤ capacity) : out.size ≤ capacity := by
  induction fuel generalizing i test later before with
  | zero => cases h
  | succ fuel ih =>
    rw [decodeFrames] at h
    dsimp only at h
    split at h
    · split at h <;> cases h
      exact hsize
    · split at h
      · obtain ⟨n, -, h⟩ := ok_of_bind h
        exact ih h hsize
      · split at h
        · cases h
        · have := size_decodeFrame_le ‹_›
          exact ih h (by rw [size_append]; omega)

/-! ### Streams -/

namespace Stream

/-- The step leaves a call that has room for at most `n` bytes in all. -/
def Step.Within (n : Nat) : Step → Prop
  | .again _ c | .done _ c | .hint _ c _ => c.out.size + c.free ≤ n
  | .fail .. => True

variable {c : Call}

section

variable (s : Stream) (h : c.out.size + c.free ≤ n)

include s h

theorem atOnce_within (opening : Frame.Opening) : ∀ r ∈ s.atOnce? c opening, r.Within n := by
  intro r hr
  unfold atOnce? at hr
  split at hr
  · dsimp only at hr
    split at hr
    · cases hr
    · split at hr
      · cases hr
      · split at hr <;> cases hr
        · trivial
        · have := size_decodeFrames_le _ ‹_› (Nat.zero_le _)
          simp only [Step.Within, size_append]
          omega
  · cases hr

theorem stepHeader_within : (s.stepHeader c).Within n := by
  have := s.atOnce_within h
  unfold stepHeader
  dsimp only
  grind [Step.Within]

theorem stepLoad_within : (s.stepLoad c).Within n := by
  unfold stepLoad
  dsimp only
  grind [Step.Within]

theorem stepRead_within : (s.stepRead c).Within n := by
  have := stepLoad_within { s with stage := .load } h
  unfold stepRead
  dsimp only
  grind [Step.Within]

theorem stepFlush_within : (s.stepFlush c).Within n := by
  unfold stepFlush
  dsimp only
  grind [Step.Within, size_slice, size_append]

theorem step_within : (s.step c).Within n := by
  unfold step
  split
  · exact stepHeader_within _ h
  · exact s.stepHeader_within h
  · exact s.stepRead_within h
  · exact s.stepLoad_within h
  · exact s.stepFlush_within h

end

theorem steps_within (fuel : Nat) (s : Stream) (h : c.out.size + c.free ≤ n) : (s.steps c fuel).Within n := by
  induction fuel generalizing s c with
  | zero => exact h
  | succ fuel ih =>
    have hstep := s.step_within h
    rw [steps]
    split
    · rename_i heq
      rw [heq] at hstep
      exact ih _ hstep
    · exact hstep

theorem run_room (s : Stream) (input : ByteArray) (pos free : Nat) : (s.run input pos free).2.out.size ≤ free := by
  have := steps_within (c := ⟨input, pos, pos, .empty, free⟩) (2 * (input.size - pos) + 16) s (Nat.zero_add free).le
  unfold run
  grind [Step.Within, ByteArray.size_empty]

theorem run_error {s : Stream} (h : (s.run input pos free).2.result = .error e) :
    (s.run input pos free).2.out = .empty := by
  grind [run, checkProgress, size_eq_zero_iff]

end Stream

end Decompress

end ZstCodec
