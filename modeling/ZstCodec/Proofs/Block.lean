import ZstCodec.Proofs.Literals
import ZstCodec.Proofs.Sequence.Execute
import ZstCodec.Proofs.Sequence.Section

/-! # Blocks decoded

A coded block is decoded to the stretch that its sequences explain, and what the writer believes of the reader's tables
stays true (`decode_writeShorter`). -/

namespace ZstCodec.Block

open Match Sequence

variable {seqs : Array Seq} {body literals : ByteArray} {c c' : Coding} {room : Literals.Room} {low reach rest : Nat}
variable {p : Policy} {s : Seq}

/-! ### Shared codes -/

/-- What the writer believes of the reader's tables. -/
structure Coding.Shared (c : Coding) (reach : Nat) (m : Memory) : Prop where
  literals : c.literals.Shared m.literals
  sequences : c.sequences.Shared reach m.sequences

theorem Coding.Shared.later (h : c.Shared reach m) (reach' : Nat) : c.later.Shared reach' m := by
  unfold Coding.later
  split
  case isTrue hc =>
    exact ⟨h.literals, h.sequences.litLength, h.sequences.offset.unchecked (by rw [hc]; decide) reach', h.sequences.matchLength⟩
  case isFalse hc =>
    exact ⟨h.literals, h.sequences.litLength, h.sequences.offset.of_unchecked hc reach', h.sequences.matchLength⟩

theorem Coding.Shared.nothing (reach : Nat) (m : Memory) : Coding.Shared {} reach m :=
  ⟨fun h => absurd rfl h, ⟨.of_nothing rfl _ _, .of_nothing rfl _ _, .of_nothing rfl _ _⟩⟩

/-! ### Offsets told -/

variable {content history : ByteArray} {window i j : Nat} {r r' : Reps}

/-- An offset told in full leads back within the window, to a place at or behind the first. -/
theorem offsetValue_of_mem {seqs : List Seq} (h : Explains content low window r i seqs j r') (hs : s ∈ seqs) :
    s.offsetValue ≤ 3 ∨ s.offsetValue ≤ window + 3 ∧ low + s.offsetValue ≤ j := by
  induction h with
  | nil => exact absurd hs (by simp)
  | @cons r r' i j s' seqs hf hrest ih =>
    rcases List.mem_cons.1 hs with rfl | hs
    · by_cases h3 : s.offsetValue ≤ 3
      · exact .inl h3
      · have hw := hf.within
        rw [Reps.resolve, if_pos (by omega)] at hw
        have h1 := hw.le_window
        have h2 := hw.low_le
        have h3 := hf.least
        have h4 := hrest.le
        dsimp only at h1 h2
        omega
    · exact ih hs

/-- The numbers of the sequences of a block have codes. -/
theorem codable_of_mem {seqs : List Seq} (h : Explains content low window r i seqs j r') (hsize : j - i ≤ maxSize)
    (hfar : window + 3 < 2 ^ 32 ∨ j < 2 ^ 32) (hs : s ∈ seqs) : Codable s := by
  obtain ⟨h1, h2, h3⟩ := length_le_of_mem h hs
  have hoff := offsetValue_of_mem h hs
  have hmax : maxSize = 131072 := rfl
  exact ⟨by omega, h1, by omega, h3, by omega⟩

/-! ### Decoding -/

/-- The bounds of a block let pass what fits its room and lies in reach. -/
theorem passes_sequenceBounds
    (hwait : waiting = .apart ∨ waiting = room.waiting literals.size)
    (hmax : j - i ≤ room.blockMax) (hcap : j - i ≤ room.capacity)
    (hreach : ∀ p o, i ≤ p → p ≤ j → Within first window p o → low + o + i ≤ history.size + p) :
    (sequenceBounds room waiting low history.size).Passes first window literals history i j := by
  have hapart : (sequenceBounds room .apart low history.size).Passes first window literals history i j :=
    ⟨by dsimp only [sequenceBounds]; omega, hreach, fun _ _ h => nomatch h⟩
  rcases hwait with rfl | rfl
  · exact hapart
  · unfold Literals.Room.waiting
    split
    · exact ⟨by dsimp only [sequenceBounds]; omega, hreach, fun _ _ h => nomatch h⟩
    split
    · exact hapart
    · refine ⟨by dsimp only [sequenceBounds]; omega, hreach, fun count place h => ?_⟩
      obtain ⟨-, rfl⟩ := Prod.mk.inj (Option.some.inj h)
      have : Literals.roomApart = 65536 := rfl
      have : Literals.slack = 32 := rfl
      omega

theorem size_literals_le (hrest : rest ≤ j) (hj : j ≤ content.size)
    (h : Explains content low window r i seqs.toList (j - rest) r') : (Cut.literals ⟨i, seqs, rest⟩ content).size ≤ j - i := by
  have hle := h.le
  have hsize := size_literalsOf_le h
  rw [literals_eq hrest h, size_append, size_slice_of_le hj]
  omega

theorem size_writeCount_pos (n : Nat) : 0 < (writeCount n).size := by
  grind [writeCount, size_push, size_putLe]

theorem size_write_pos {s : Strategy}
    (h : Sequence.write seqs old s = some (bytes, tables)) : 0 < bytes.size := by
  have hcount := size_writeCount_pos seqs.size
  unfold Sequence.write at h
  split at h
  · simp_all
  · obtain ⟨c, -, h⟩ := Option.bind_eq_some_iff.1 h
    grind

theorem sections_of_writeShorter
    (h : writeShorter p n literals seqs c = some (body, c')) :
    ∃ q litPart code seqPart tables, Literals.write literals q c.literals = (litPart, code) ∧
      Sequence.write seqs c.sequences p.strategy = some (seqPart, tables) ∧ body = litPart ++ seqPart ∧
      c' = { literals := code, sequences := tables } ∧ body.size + leastGain n p.strategy < n := by
  obtain ⟨⟨body', c''⟩, hbody, h⟩ := Option.bind_eq_some_iff.1 h
  dsimp only at h
  split at h
  case isFalse => exact nomatch h
  unfold writeBody at hbody
  generalize hlw : Literals.write literals _ c.literals = written at hbody
  obtain ⟨⟨seqPart, tables⟩, hsw, hbody⟩ := Option.bind_eq_some_iff.1 hbody
  grind

/-- The room of a block that stands for `n` bytes. -/
structure RoomFor (room : Literals.Room) (n : Nat) : Prop where
  blockMax : n ≤ room.blockMax
  capacity : n ≤ room.capacity

/-- A coded block is decoded to the stretch that it was coded from. -/
theorem decode_writeShorter
    (test : EndTest) (hrest : rest ≤ j) (hj : j ≤ content.size) (hn : j - i ≤ maxSize)
    (hex : Explains content firstPosition window memory.reps i seqs.toList (j - rest) r')
    (hw : writeShorter p (j - i) (Cut.literals ⟨i, seqs, rest⟩ content) seqs c = some (body, c')) (hc : c.Shared reach memory)
    (hfar : window + 3 < 2 ^ 32 ∨ j < 2 ^ 32) (hreach : ∀ s ∈ seqs, offsetCode s.offsetValue ≤ reach) (hroom : RoomFor room (j - i))
    (htail : EndsWith history content firstPosition i)
    (hlow : ∀ p o, i ≤ p → p ≤ j → Within firstPosition window p o → low + o + i ≤ history.size + p) :
    ∃ memory', decode body room test memory low history = .ok (history ++ slice content i j, memory') ∧ c'.Shared reach memory' ∧
      memory'.reps = r' := by
  have hmax : maxSize = 131072 := rfl
  have hmany := length_seqs_le hex
  rw [Array.length_toList] at hmany
  obtain ⟨hblock, hcap⟩ := hroom
  generalize hlits : Cut.literals ⟨i, seqs, rest⟩ content = literals at hw
  have hlsize : literals.size ≤ j - i := by
    rw [← hlits]
    exact size_literals_le hrest hj hex
  obtain ⟨_, litPart, code, seqPart, tables, hlw, hsw, rfl, rfl, hgain⟩ := sections_of_writeShorter hw
  -- the two sections are read one after the other
  have hfits : room.Fits literals.size := by
    unfold Literals.Room.Fits
    omega
  obtain ⟨table', ⟨waiting, hread, hwait⟩, hcode⟩ := Literals.read_write hc.literals (by omega) hfits (size_write_pos hsw) hlw
  have hopened := write_spec (fun s hs => codable_of_mem hex (by omega) (by omega) (Array.mem_toList_iff.2 hs)) hreach (by omega)
    hc.sequences hsw litPart
  have hpass := passes_sequenceBounds hwait hblock hcap hlow
  have hsmall : ¬ room.blockMax < (litPart ++ seqPart).size := by omega
  cases hopened with
  | none hempty hsame hhead =>
    have hnil : seqs.toList = [] := List.length_eq_zero_iff.1 hempty
    have hall := literals_eq hrest hex
    rw [hnil] at hex hall
    obtain ⟨hij, rfl⟩ := explains_nil hex
    refine ⟨{ memory with literals := table' }, ?_, ⟨hcode, hsame ▸ hc.sequences⟩, rfl⟩
    rw [hlits, hij] at hall
    have hrun := runRest_eq hpass hj hall
    rw [show (literalsOf content i []).size = 0 from rfl] at hrun
    unfold decode
    simp only [bind, Except.bind]
    rw [if_neg hsmall, hread]
    dsimp only
    rw [hhead]
    dsimp only
    rw [if_neg (by omega), hrun]
    rfl
  | some d next hne hhead hstream hcoded hshared =>
    obtain ⟨cursor, hcopies, hend⟩ := readStream_writeStream hne hcoded memory.reps
    have hrun := runAll_explains test hrest hj hex htail (by rw [hlits]; exact hpass)
    refine ⟨{ literals := table', sequences := some d, reps := repsAfter memory.reps seqs.toList }, ?_, ⟨hcode, hshared⟩, repsAfter_eq hex⟩
    rw [hlits] at hrun
    unfold decode
    simp only [bind, Except.bind]
    rw [if_neg hsmall, hread]
    dsimp only
    rw [hhead]
    dsimp only
    rw [if_neg (by omega), hstream, hcopies]
    dsimp only
    rw [hend, hrun]
    rfl

end ZstCodec.Block
