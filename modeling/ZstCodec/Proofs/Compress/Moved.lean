import ZstCodec.Proofs.Compress.Parts

/-! # Content that stands elsewhere

What explains a stretch of content explains it also where the same bytes stand in other content (`Part.moved`). And what
a writer tells a reader of whom it knows little is understood by one who remembers more (`Part.covered`). -/

namespace ZstCodec

/-- The bytes of `a` from `low` to `stop` stand in `b` too, `d` places further on. -/
structure Moved (a b : ByteArray) (low stop d : Nat) : Prop where
  le_size : stop ≤ a.size
  add_le_size : stop + d ≤ b.size
  byte : ∀ p, low ≤ p → p < stop → byteAt b (p + d) = byteAt a p

namespace Moved

variable {a b : ByteArray} {low stop d i j n : Nat}

theorem append (a c : ByteArray) : Moved a (a ++ c) 0 a.size 0 where
  le_size := le_rfl
  add_le_size := by rw [size_append]; omega
  byte _ _ hp := byteAt_append_left hp

theorem slice (h : Moved a b low stop d) (hi : low ≤ i) (hj : j ≤ stop) : slice b (i + d) (j + d) = slice a i j := by
  have h1 := h.le_size
  have h2 := h.add_le_size
  refine ext_byteAt (by grind [size_slice_of_le]) fun k hk => ?_
  rw [size_slice_of_le (by omega)] at hk
  rw [byteAt_slice_of_lt (by omega), byteAt_slice_of_lt (by omega), ← h.byte (i + k) (by omega) (by omega)]
  congr 1
  omega

theorem agree (h : Moved a b low stop d) (ha : Agree a i j n) (hi : low ≤ i) (hj : low ≤ j) (hin : i + n ≤ stop) (hjn : j + n ≤ stop) :
    Agree b (i + d) (j + d) n := by
  intro k hk
  have h1 := h.byte (i + k) (by omega) (by omega)
  have h2 := h.byte (j + k) (by omega) (by omega)
  rw [show i + d + k = i + k + d by omega, show j + d + k = j + k + d by omega, h1, h2]
  exact ha k hk

theorem isRun (h : Moved a b low stop d) (hi : low ≤ i) (hj : j ≤ stop) (hr : Compress.Writer.isRun a i j = true) :
    Compress.Writer.isRun b (i + d) (j + d) = true := by
  unfold Compress.Writer.isRun at hr ⊢
  rw [sameBytes_iff] at hr ⊢
  have ha : Agree a i (i + 1) (j - i - 1) := hr
  intro k hk
  have := h.agree ha hi (by omega) (by omega) (by omega) k (by omega)
  grind

end Moved

end ZstCodec

namespace ZstCodec.Match

variable {a b : ByteArray} {low window i j : Nat} {r r' : Reps} {seqs : List Seq}

theorem Explains.moved (h : Explains a low window r i seqs j r') (hm : Moved a b low' stop d) (hl : low' ≤ low)
    (hi : low' ≤ i) (hj : j ≤ stop) : Explains b low window r (i + d) seqs (j + d) r' := by
  induction h with
  | nil => exact .nil _ _
  | @cons r r' i j s seqs hf hrest ih =>
    obtain ⟨hcode, hleast, hwithin, hagree⟩ := hf
    have hle := hrest.le
    generalize ho : (r.resolve s.litLength s.offsetValue).1 = o at hwithin hagree
    have hlow := hwithin.low_le
    refine .cons ⟨hcode, hleast, ?_, ?_⟩ ?_
    · rw [ho]
      exact hwithin.mono (by omega)
    · have := hm.agree hagree (by omega) (by omega) (by omega) (by omega)
      grind
    grind

/-- A wider window does, and so does any that reaches back to the lowest position. -/
theorem Explains.through (h : Explains b low window r i seqs j r') (hw : window ≤ window' ∨ j ≤ low + window') :
    Explains b low window' r i seqs j r' := by
  induction h with
  | nil => exact .nil _ _
  | @cons r r' i j s seqs hf hrest ih =>
    have hle := hrest.le
    have hlow := hf.within.low_le
    have hwindow := hf.within.le_window
    exact .cons { hf with within := { hf.within with le_window := by omega } } (ih hw)

/-! ### A reader who remembers more -/

/-- A reader remembers `r`, of which a writer counts on `known`, where zero is unknown. -/
structure Reps.Covers (r known : Reps) : Prop where
  first : known.first = 0 ∨ known.first = r.first
  second : known.second = 0 ∨ known.second = r.second
  third : known.third = 0 ∨ known.third = r.third

namespace Reps.Covers

variable {known : Reps}

theorem refl (r : Reps) : Reps.Covers r r := ⟨.inr rfl, .inr rfl, .inr rfl⟩

theorem nothing (r : Reps) : Reps.Covers r ⟨0, 0, 0⟩ := ⟨.inl rfl, .inl rfl, .inl rfl⟩

theorem push (h : Reps.Covers r known) (o : Nat) : Reps.Covers (r.push o) (known.push o) := ⟨.inr rfl, h.first, h.second⟩

theorem resolve (h : Reps.Covers r known) (ho : 0 < (known.resolve l v).1) :
    (r.resolve l v).1 = (known.resolve l v).1 ∧ Reps.Covers (r.after l v) (known.after l v) := by
  unfold Reps.after
  revert ho
  unfold Reps.resolve
  dsimp only
  generalize (if l = 0 then v + 1 else v) = which
  split
  · exact fun _ => ⟨rfl, h.push _⟩
  split
  · exact fun ho => ⟨(h.first.resolve_left (ne_of_gt ho)).symm, h⟩
  split
  · exact fun ho => ⟨(h.second.resolve_left (ne_of_gt ho)).symm, h.second, h.first, h.third⟩
  split
  · intro ho
    have he := h.third.resolve_left (ne_of_gt ho)
    exact ⟨he.symm, he ▸ h.push _⟩
  · intro ho
    have he := h.first.resolve_left (by omega)
    exact ⟨by rw [he], by rw [he]; exact h.push _⟩

end Reps.Covers

theorem Explains.covered (h : Explains b low window known i seqs j known') (hr : Reps.Covers r known) :
    ∃ r', Explains b low window r i seqs j r' ∧ Reps.Covers r' known' := by
  induction h generalizing r with
  | nil => exact ⟨r, .nil _ _, hr⟩
  | @cons known known' i j s seqs hf _ ih =>
    obtain ⟨ho, hr'⟩ := hr.resolve hf.within.pos
    obtain ⟨r', hex, hc⟩ := ih hr'
    exact ⟨r', .cons ⟨hf.code_pos, hf.least, ho ▸ hf.within, ho ▸ hf.agree⟩ hex, hc⟩

end ZstCodec.Match

namespace ZstCodec.Compress

open Match

variable {a b : ByteArray} {low stop d window i j : Nat} {r r' : Reps} {last : Bool} {c c' : Block.Coding} {bytes : ByteArray}

/-! ### Parts -/

theorem gather_moved (h : Explains a k window r i seqs j r') (hm : Moved a b low stop d) (hi : low ≤ i)
    (hj : j ≤ stop) (out : ByteArray) :
    Block.gather a seqs i out = ((Block.gather a seqs i out).1, j) ∧
      Block.gather b seqs (i + d) out = ((Block.gather a seqs i out).1, j + d) := by
  induction h generalizing out with
  | nil => exact ⟨rfl, rfl⟩
  | @cons r r' i j s seqs hf hrest ih =>
    have hle := hrest.le
    rw [Block.gather, Block.gather, copySlice_end, copySlice_end, show i + d + s.litLength = i + s.litLength + d by omega,
      hm.slice hi (by omega), show i + s.litLength + d + s.matchLength = i + s.litLength + s.matchLength + d by omega]
    exact ih (by omega) hj _

theorem literals_moved (h : Explains a k window r i seqs.toList (j - rest) r')
    (hm : Moved a b low stop d) (hi : low ≤ i) (hj : j ≤ stop) (hrest : rest ≤ j) :
    Block.Cut.literals ⟨i + d, seqs, rest⟩ b = Block.Cut.literals ⟨i, seqs, rest⟩ a := by
  have hle := h.le
  obtain ⟨h1, h2⟩ := gather_moved h hm hi (by omega) .empty
  unfold Block.Cut.literals
  rw [h1, h2]
  dsimp only
  rw [copySlice_end, copySlice_end, show j - rest + d + rest = j - rest + rest + d by omega, hm.slice (by omega) (by omega)]

/-- A part of some content is a part of any content that has the same bytes at some place. -/
theorem Part.moved (h : Part a window i j last c r bytes c' r') (hm : Moved a b low stop d) (hl : low ≤ firstPosition) (hi : low ≤ i)
    (hij : i < j) (hj : j ≤ stop) : Part b window (i + d) (j + d) last c r bytes c' r' := by
  have hsize : j - i = j + d - (i + d) := by omega
  cases h with
  | stored =>
    rw [← hm.slice hi hj, hsize]
    exact .stored
  | run h =>
    rw [← hm.byte i hi (by omega), hsize]
    exact .run (hm.isRun hi hj h)
  | @coded _ _ rest _ _ _ hrest he hw =>
    refine .coded (le_trans hrest (Nat.le_add_right j d)) ?_ (by rw [literals_moved he hm hi hj hrest, ← hsize]; exact hw)
    rw [show j + d - rest = j - rest + d by omega]
    exact he.moved hm hl hi (by omega)

theorem Part.covered (h : Part b window i j last c known bytes c' known') (hr : Reps.Covers r known) :
    ∃ r', Part b window i j last c r bytes c' r' ∧ Reps.Covers r' known' := by
  cases h with
  | stored => exact ⟨r, .stored, hr⟩
  | run h => exact ⟨r, .run h, hr⟩
  | coded hrest he hw =>
    obtain ⟨r', he', hr'⟩ := he.covered hr
    exact ⟨r', .coded hrest he' hw, hr'⟩

theorem Part.through (h : Part b window i j last c r bytes c' r') (hw : window ≤ window' ∨ j ≤ firstPosition + window') :
    Part b window' i j last c r bytes c' r' := by
  cases h with
  | stored => exact .stored
  | run h => exact .run h
  | coded hrest he hc => exact .coded hrest (he.through (hw.imp_right fun h => le_trans (Nat.sub_le _ _) h)) hc

theorem Parts.extend (h : Parts y b last j i c r bytes c' r') (hj : j ≤ b.size) (rest : ByteArray) :
    Parts y (b ++ rest) last j i c r bytes c' r' := by
  induction h with
  | nil => exact .nil _ _
  | cons h1 h2 h3 hw hp _ ih =>
    have hpart := hp.moved (.append b rest) (Nat.zero_le _) (Nat.zero_le _) h1 (Nat.le_trans h2 hj)
    exact .cons h1 h2 h3 hw hpart ih

/-- What stands in the content of one frame is allowed in another, at `d` places further on. -/
structure Layout.Passes (y y' : Layout) (d : Nat) : Prop where
  blockSize : y.blockSize ≤ y'.blockSize
  allows : ∀ {k window}, y.Allows k window → ∃ window', y'.Allows (k + d) window' ∧ (window ≤ window' ∨ k ≤ firstPosition + window')

theorem Layout.Passes.refl (y : Layout) : y.Passes y 0 := ⟨le_rfl, fun h => ⟨_, h, .inl le_rfl⟩⟩

/-- Parts of some content, told to a reader who remembers more, are parts of content with the same bytes. -/
theorem Parts.moved (h : Parts y a last j i c known bytes c' known') (hm : Moved a b low stop d)
    (hl : low ≤ firstPosition) (hi : low ≤ i) (hj : j ≤ stop) (hy : y.Passes y' d) (hr : Reps.Covers r known) :
    ∃ r', Parts y' b last (j + d) (i + d) c r bytes c' r' ∧ Reps.Covers r' known' := by
  induction h generalizing r with
  | nil => exact ⟨r, .nil _ _, hr⟩
  | @cons i k window c c' c'' known known' known'' bytes rest hik hk hsize hallows hpart _ ih =>
    obtain ⟨window', hallows', hwindow⟩ := hy.allows hallows
    obtain ⟨r', hpart', hr'⟩ := ((hpart.through hwindow).moved hm hl hi hik (le_trans hk hj)).covered hr
    obtain ⟨r'', hparts, hr''⟩ := ih (by omega) hr'
    have hblock := hy.blockSize
    have hlast : decide (k + d = j + d) = decide (k = j) := by simp
    refine ⟨r'', .cons (by omega) (by omega) (by omega) hallows' ?_ hparts, hr''⟩
    rw [hlast]
    exact hpart'

end ZstCodec.Compress
