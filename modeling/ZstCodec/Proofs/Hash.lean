import ZstCodec.Proofs.Bytes
import ZstCodec.Hash.XxHash64

/-! # The checksum of a stretch

The hash of a stretch is the hash of the stretch taken by itself (`range_eq_hash`): a writer hashes its content behind
the dictionary, and a reader what it has produced. -/

namespace ZstCodec.XxHash64

variable {b : ByteArray} {i j : Nat}

variable {x : Nat}

theorem word32_slice (h : i + x + 4 ≤ j) : word32 (slice b i j) x = word32 b (i + x) := by
  grind [word32_eq, byteAt_slice_of_lt]

theorem word64_slice (h : i + x + 8 ≤ j) : word64 (slice b i j) x = word64 b (i + x) := by
  grind [UInt64.toNat_inj, word64_toNat, le32, word32_slice]

theorem stripes_slice (n : Nat) : ∀ (x : Nat) (v1 v2 v3 v4 : UInt64), i + x + 32 * n ≤ j →
    stripes (slice b i j) x v1 v2 v3 v4 n = stripes b (i + x) v1 v2 v3 v4 n := by
  induction n with
  | zero => exact fun _ _ _ _ _ _ => rfl
  | succ n ih =>
    grind [word64_slice, stripes.eq_2]

theorem eights_slice (n : Nat) : ∀ (x : Nat) (h : UInt64), i + x + 8 * n ≤ j → eights (slice b i j) x h n = eights b (i + x) h n := by
  induction n with
  | zero => exact fun _ _ _ => rfl
  | succ n ih =>
    grind [eights, word64_slice]

theorem ones_slice (n : Nat) : ∀ (x : Nat) (h : UInt64), i + x + n ≤ j → ones (slice b i j) x h n = ones b (i + x) h n := by
  induction n with
  | zero => exact fun _ _ _ => rfl
  | succ n ih =>
    grind [ones, byteAt_slice_of_lt]

theorem finish_slice (hx : i + x ≤ j) (h : UInt64) : finish (slice b i j) x (j - i) h = finish b (i + x) j h := by
  have hlen : j - i - x = j - (i + x) := by omega
  unfold finish
  dsimp only
  rw [hlen, eights_slice _ _ _ (by omega)]
  generalize hn : (j - (i + x)) / 8 = n
  have hp : i + (x + 8 * n) = i + x + 8 * n := by omega
  have hp4 : i + (x + 8 * n + 4) = i + x + 8 * n + 4 := by omega
  have hrest : j - i - (x + 8 * n) = j - (i + x + 8 * n) := by omega
  rw [hrest]
  by_cases hfour : i + x + 8 * n + 4 ≤ j
  · rw [if_pos (by omega), if_pos hfour, word32_slice (by omega), ones_slice _ _ _ (by omega), hp, hp4]
  · rw [if_neg (by omega), if_neg hfour, ones_slice _ _ _ (by omega), hp]

/-- A stretch has the hash of its bytes. -/
theorem range_eq_hash (hij : i ≤ j) (hj : j ≤ b.size) : range b i j = hash (slice b i j) := by
  have hsize : (slice b i j).size = j - i := size_slice_of_le hj
  rw [hash, hsize, range, range]
  dsimp only
  rw [Nat.sub_zero]
  by_cases h32 : 32 ≤ j - i
  · rw [if_pos h32, if_pos h32, stripes_slice _ _ _ _ _ _ (by omega), finish_slice (by omega)]
    congr 1
    omega
  simp_all [if_neg, finish_slice]

end ZstCodec.XxHash64
