import ZstCodec.Proofs.Match.Explains
import ZstCodec.Dictionary.Format

/-! # What a full dictionary holds

A full dictionary that is accepted has four tables that can be read on their own, and three offsets within its content. -/

namespace ZstCodec.Dictionary

open Match

/-- A full dictionary is read table by table. -/
theorem Entropy.read_spec (h : Entropy.read b = .ok e) :
    ∃ used i₁ i₂ i₃, Huffman.WeightTable.read (slice b 8 b.size) = .ok (e.literals, used) ∧
      readDistribution Sequence.offsetKind b (8 + used) = .ok (e.offset, i₁) ∧
      readDistribution Sequence.matchLengthKind b i₁ = .ok (e.matchLength, i₂) ∧
      readDistribution Sequence.litLengthKind b i₂ = .ok (e.litLength, i₃) ∧ e.size = i₃ + 12 ∧
      Reps.All (fun o => 0 < o ∧ o ≤ b.size - e.size) e.reps := by
  simp only [Entropy.read, bind, Except.bind, throw, throwThe, MonadExceptOf.throw, pure, Except.pure] at h
  by_cases hshort : b.size ≤ 8
  · rw [if_pos hshort] at h
    cases h
  rw [if_neg hshort] at h
  rcases hlit : Huffman.WeightTable.read (slice b 8 b.size) with _ | ⟨literals, used⟩
  · rw [hlit] at h
    cases h
  rw [hlit] at h
  dsimp only at h
  rcases hoff : readDistribution Sequence.offsetKind b (8 + used) with _ | ⟨offset, i₁⟩
  · rw [hoff] at h
    cases h
  rw [hoff] at h
  dsimp only at h
  rcases hm : readDistribution Sequence.matchLengthKind b i₁ with _ | ⟨matchLength, i₂⟩
  · rw [hm] at h
    cases h
  rw [hm] at h
  dsimp only at h
  rcases hl : readDistribution Sequence.litLengthKind b i₂ with _ | ⟨litLength, i₃⟩
  · rw [hl] at h
    cases h
  rw [hl] at h
  dsimp only at h
  by_cases hend : b.size < i₃ + 12
  · rw [if_pos hend] at h
    cases h
  rw [if_neg hend] at h
  split at h
  · cases h
  rename_i hbad
  cases h
  simp only [Bool.or_eq_true, beq_iff_eq, decide_eq_true_eq, not_or, not_lt] at hbad
  obtain ⟨⟨⟨h1, h1'⟩, h2, h2'⟩, h3, h3'⟩ := hbad
  exact ⟨used, i₁, i₂, i₃, rfl, hoff, hm, hl, rfl, ⟨pos_of_ne_zero h1, h1'⟩, ⟨pos_of_ne_zero h2, h2'⟩,
    ⟨pos_of_ne_zero h3, h3'⟩⟩
end ZstCodec.Dictionary
