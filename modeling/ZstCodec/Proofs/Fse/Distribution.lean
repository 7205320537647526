import ZstCodec.Proofs.Fse.Table

/-! # Distributions written and read back

The reader keeps a byte position and bits beyond it; near the end of the input the former is held back, and only the
position in the bits matters (`Place.Settled`). So the fields are met in the order in which they were written
(`Distribution.read_write`), and whatever is read gives all states away (`Distribution.read_valid`). -/

namespace ZstCodec.Fse

open Distribution

variable {cs : Array Int} {az : Bool} {head : ByteArray} {k left left' max n s v x z : Nat}

/-! ### Places -/

namespace Place

variable {p : Place} {b : ByteArray}

def abs (p : Place) : Int := 8 * p.byte + p.bit

/-- The next bits can be read: four bytes follow, and the bits are less than a byte, unless these are the last four. -/
structure Settled (p : Place) (size : Nat) : Prop where
  byte_nonneg : 0 ≤ p.byte
  byte_le : p.byte + 4 ≤ size
  bit_nonneg : 0 ≤ p.bit
  bit_lt : p.bit < 32
  near : p.bit < 8 ∨ p.byte + 4 = size

/-- The word at a place holds the bits from its position on. -/
theorem word_mod (h : p.Settled b.size) {pos : Nat} (hp : p.abs = pos) (hk : p.bit + k ≤ 32) :
    p.word b % 2 ^ k = number b / 2 ^ pos % 2 ^ k := by
  obtain ⟨h1, -, h3, h4, -⟩ := h
  obtain ⟨byte, hbyte⟩ := Int.eq_ofNat_of_zero_le h1
  obtain ⟨bit, hbit⟩ := Int.eq_ofNat_of_zero_le h3
  unfold abs at hp
  unfold word
  rw [hbyte, hbit, Int.toNat_natCast, Int.toNat_natCast]
  have hb : bit.toUInt32.toNat = bit := by
    rw [Nat.toUInt32_eq, UInt32.toNat_ofNat']
    omega
  have hsplit : 2 ^ 32 = 2 ^ bit * (2 ^ k * 2 ^ (32 - bit - k)) := by
    rw [← pow_add, ← pow_add]
    congr 1
    omega
  have hpos : 256 ^ byte * 2 ^ bit = 2 ^ pos := by
    rw [show (256 : Nat) = 2 ^ 8 by norm_num, ← pow_mul, ← pow_add]
    congr 1
    omega
  rw [UInt32.toNat_shiftRight, hb, Nat.mod_eq_of_lt (show bit < 32 by omega), Nat.shiftRight_eq_div_pow, ← le32, le32_eq_number,
    hsplit, Nat.mod_mul_right_div_self, Nat.div_div_eq_div_mul, hpos, Nat.mod_mul_right_mod]

theorem settle_spec (size : Nat) (h1 : 0 ≤ p.byte) (h2 : p.byte + 4 ≤ size) (h3 : 0 ≤ p.bit) (h4 : p.bit < 32)
    (hend : p.abs < 8 * size) : (p.settle size).Settled size ∧ (p.settle size).abs = p.abs := by
  have hdiv : p.bit.fdiv 8 = p.bit / 8 := Int.fdiv_eq_ediv_of_nonneg _ (by omega)
  unfold abs at hend ⊢
  unfold settle
  rw [hdiv, show p.bit.emod 8 = p.bit % 8 from rfl]
  split
  · refine ⟨⟨?_, ?_, ?_, ?_, ?_⟩, ?_⟩ <;> dsimp only <;> omega
  · have hmod : (p.bit - 8 * ((size : Int) - 4 - p.byte)).emod 32 = p.bit - 8 * ((size : Int) - 4 - p.byte) :=
      Int.emod_eq_of_lt (by omega) (by omega)
    refine ⟨⟨?_, ?_, ?_, ?_, ?_⟩, ?_⟩ <;> dsimp only <;> omega

end Place

/-! ### Runs of zeros -/

/-- At the low end of `v` stand `n` pairs of ones, and then the pair `z`. -/
def Pairs (z : Nat) : Nat → Nat → Prop
  | 0, v => v % 4 = z
  | n + 1, v => v % 4 = 3 ∧ Pairs z n (v / 4)

theorem Pairs.drop (m n : Nat) : ∀ {v : Nat}, Pairs z (m + n) v → Pairs z n (v / 4 ^ m) := by
  induction m with
  | zero => exact fun h => by simpa using h
  | succ m ih =>
    intro v h
    rw [add_right_comm] at h
    rw [pow_succ', ← Nat.div_div_eq_div_mul]
    exact ih h.2

theorem low_pair (h : x % 2 ^ m = v % 2 ^ m) (hm : 2 ≤ m) :
    x % 4 = v % 4 ∧ x / 4 % 2 ^ (m - 2) = v / 4 % 2 ^ (m - 2) := by
  have hsplit : 2 ^ m = 4 * 2 ^ (m - 2) := by
    rw [show (4 : Nat) = 2 ^ 2 by norm_num, ← pow_add]
    congr 1
    omega
  grind [Nat.mod_mul_right_mod, Nat.mod_mul_right_div_self]

/-- Pairs that lie in the low bits are seen there. -/
theorem onePairs_eq (hz : z < 3) (n : Nat) :
    ∀ (fuel : Nat) {v x m : Nat}, Pairs z n v → x % 2 ^ m = v % 2 ^ m → 2 * n + 2 ≤ m → n ≤ fuel →
      onePairs x fuel = n ∧ x / 4 ^ n % 4 = z := by
  induction n with
  | zero =>
    intro fuel v x m h hx hm _
    have h4 : x % 4 = z := (low_pair hx (by omega)).1.trans h
    refine ⟨?_, by simpa using h4⟩
    cases fuel with
    | zero => rfl
    | succ fuel => rw [onePairs, if_neg (by omega)]
  | succ n ih =>
    intro fuel v x m h hx hm hf
    obtain ⟨fuel, rfl⟩ : ∃ f, fuel = f + 1 := ⟨fuel - 1, by omega⟩
    obtain ⟨h3, hx'⟩ := low_pair hx (by omega)
    obtain ⟨h1, h2⟩ := ih fuel h.2 hx' (by omega) (by omega)
    rw [onePairs, if_pos (h3.trans h.1), h1, pow_succ', ← Nat.div_div_eq_div_mul]
    exact ⟨rfl, h2⟩

/-- More pairs are seen than the low bits hold for sure. -/
theorem le_onePairs (j : Nat) :
    ∀ (fuel : Nat) {n v x m : Nat}, Pairs z n v → x % 2 ^ m = v % 2 ^ m → j ≤ n → 2 * j ≤ m → j ≤ fuel → j ≤ onePairs x fuel := by
  induction j with
  | zero => omega
  | succ j ih =>
    intro fuel n v x m h hx hj hm hf
    obtain ⟨fuel, rfl⟩ : ∃ f, fuel = f + 1 := ⟨fuel - 1, by omega⟩
    obtain ⟨n, rfl⟩ : ∃ k, n = k + 1 := ⟨n - 1, by omega⟩
    obtain ⟨h3, hx'⟩ := low_pair hx (by omega)
    rw [onePairs, if_pos (h3.trans h.1)]
    exact Nat.succ_le_succ (ih fuel h.2 hx' (by omega) (by omega) (by omega))

theorem skipZeros_spec (hz : z < 3) (fuel : Nat) :
    ∀ {n pos : Nat} {p : Place} (s : Nat), p.Settled b.size → p.abs = pos → Pairs z n (number b / 2 ^ pos) →
      pos + 2 * n + 2 ≤ 8 * b.size → n < 12 * fuel →
      ∃ p', skipZeros b b.size p s fuel = (s + 3 * n + z, p') ∧ 0 ≤ p'.byte ∧ p'.byte + 4 ≤ b.size ∧ 0 ≤ p'.bit ∧
        (p'.bit < 32 ∨ p'.byte + 4 = b.size) ∧ p'.abs = pos + 2 * n + 2 := by
  induction fuel with
  | zero => omega
  | succ fuel ih =>
    intro n pos p s hs hp hpairs hend hf
    obtain ⟨h1, h2, h3, h4, h5⟩ := id hs
    unfold Place.abs at hp
    rw [skipZeros]
    dsimp only
    rcases lt_or_ge n 12 with hn | hn
    · -- the whole run is in sight
      obtain ⟨k, hk⟩ : ∃ k : Nat, p.bit + k = 32 := ⟨(32 - p.bit).toNat, by omega⟩
      obtain ⟨e1, e2⟩ := onePairs_eq hz n 15 hpairs (Place.word_mod hs hp (Int.le_of_eq hk)) (by omega) (by omega)
      rw [e1, if_neg (by omega), e2]
      refine ⟨_, rfl, h1, h2, ?_, ?_, ?_⟩
      · dsimp only
        omega
      · grind
      grind [Place.abs]
    · have hbit : p.bit < 8 := by omega
      have hle := le_onePairs 12 15 hpairs (Place.word_mod hs hp (k := 24) (by omega)) hn (by omega) (by omega)
      rw [if_pos hle]
      have hdrop := Pairs.drop 12 (n - 12) (by rwa [Nat.add_sub_cancel' hn])
      rw [Nat.div_div_eq_div_mul, show (4 : Nat) ^ 12 = 2 ^ 24 by norm_num, ← pow_add] at hdrop
      split
      · obtain ⟨p', g1, g2⟩ := ih (n := n - 12) (p := { p with byte := p.byte + 3 }) (s + 36)
          ⟨by dsimp only; omega, by dsimp only; omega, h3, h4, .inl hbit⟩ (by unfold Place.abs; dsimp only; omega) hdrop (by omega) (by omega)
        grind
      · have hmod : (p.bit - 8 * ((b.size : Int) - 7 - p.byte)).emod 32 = p.bit - 8 * ((b.size : Int) - 7 - p.byte) :=
          Int.emod_eq_of_lt (by omega) (by omega)
        obtain ⟨p', g1, g2⟩ := ih (n := n - 12)
          (p := { byte := (b.size : Int) - 4, bit := p.bit - 8 * ((b.size : Int) - 7 - p.byte) }) (s + 36)
          ⟨by dsimp only; omega, by dsimp only; omega, by dsimp only; omega, by dsimp only; omega, .inr (by dsimp only; omega)⟩
          (by unfold Place.abs; dsimp only; omega) hdrop (by omega) (by omega)
        grind

theorem writeZeros_spec (fuel : Nat) :
    ∀ {n : Nat} {w : BitWriter}, w.Sound → n < fuel →
      (writeZeros w n fuel).Sound ∧ (writeZeros w n fuel).length = w.length + 2 * (n / 3) + 2 ∧
        ((writeZeros w n fuel).Opens b → w.Opens b ∧ Pairs (n % 3) (n / 3) (number b / 2 ^ w.length)) := by
  induction fuel with
  | zero => omega
  | succ fuel ih =>
    intro n w hw hf
    have hmost : BitWriter.mostBits = 56 := rfl
    rw [writeZeros]
    by_cases hn : 3 ≤ n
    · rw [if_pos hn]
      have hw' : (w.addNat 3 2).Sound := hw.addNat 3 (by omega)
      have hl := BitWriter.length_addNat hw 3 (n := 2) (by omega)
      obtain ⟨h1, h2, h3⟩ := ih (n := n - 3) hw' (by omega)
      have hdiv : n / 3 = (n - 3) / 3 + 1 := by omega
      have hmod : n % 3 = (n - 3) % 3 := by omega
      change (writeZeros (w.addNat 3 2) (n - 3) fuel).Sound ∧ (writeZeros (w.addNat 3 2) (n - 3) fuel).length = _ ∧
        ((writeZeros (w.addNat 3 2) (n - 3) fuel).Opens b → _)
      refine ⟨h1, by omega, fun ho => ?_⟩
      obtain ⟨h4, h5⟩ := h3 ho
      obtain ⟨h6, h7, -⟩ := h4.prior hw (by omega)
      refine ⟨h6, ?_⟩
      rw [hdiv, hmod]
      refine ⟨h7, ?_⟩
      simp_all [pow_add, Nat.div_div_eq_div_mul]
    · rw [if_neg hn]
      refine ⟨hw.addNat n (by omega), ?_, fun ho => ?_⟩
      · simp_all [BitWriter.length_addNat]
      · obtain ⟨h6, h7, -⟩ := ho.prior hw (by omega)
        refine ⟨h6, ?_⟩
        rw [Nat.div_eq_of_lt (by omega), Nat.mod_eq_of_lt (by omega)]
        show _ % 4 = _
        omega

theorem zerosFrom_spec (d : Distribution) (n : Nat) :
    ∀ s, s + n = d.counts.size → zerosFrom d.counts s n ≤ n ∧ (∀ i < zerosFrom d.counts s n, d.count (s + i) = 0) ∧
      (zerosFrom d.counts s n < n → d.count (s + zerosFrom d.counts s n) ≠ 0) := by
  induction n with
  | zero => exact fun s _ => ⟨Nat.le_refl _, fun _ hi => absurd hi (Nat.not_lt_zero _), fun h0 => absurd h0 (Nat.not_lt_zero _)⟩
  | succ n ih =>
    intro s hs
    have hget : d.counts.getD s 1 = d.count s := by
      simp [count, Array.getD_eq_getD_getElem?, show s < d.counts.size by omega]
    rw [zerosFrom, hget]
    by_cases h0 : d.count s = 0
    · rw [if_pos h0]
      obtain ⟨h1, h2, h3⟩ := ih (s + 1) (by omega)
      refine ⟨by omega, fun i hi => ?_, fun hlt => ?_⟩
      · rcases i with _ | i
        · exact h0
        grind
      grind
    simp_all

theorem before_zeros (d : Distribution) (h : ∀ i < n, d.count (s + i) = 0) : d.before (s + n) = d.before s := by
  induction n with
  | zero => rfl
  | succ n ih =>
    grind [before_succ, share]

/-! ### Counts -/

theorem lowerThreshold_spec (hleft : 0 < left) (fuel : Nat) :
    ∀ k, left < 2 * 2 ^ k → k ≤ fuel + highBit left →
      lowerThreshold left (2 ^ k) (k + 1) fuel = (2 ^ highBit left, highBit left + 1) := by
  have hdone {k : Nat} (hk : left < 2 * 2 ^ k) (hle : k ≤ highBit left) : k = highBit left := by
    have hlt : highBit left < k + 1 := (Nat.log2_lt (by omega)).2 (by rwa [pow_succ'])
    omega
  induction fuel with
  | zero =>
    intro k hk hf
    rw [← hdone hk (by omega)]
    rfl
  | succ fuel ih =>
    intro k hk hf
    rw [lowerThreshold]
    by_cases hlt : left < 2 ^ k
    · obtain ⟨j, rfl⟩ : ∃ j, k = j + 1 := by
        rcases k with _ | j
        · omega
        · exact ⟨j, rfl⟩
      grind
    · rw [if_neg hlt, ← hdone hk ((Nat.le_log2 (by omega)).2 (by omega))]

theorem writeCounts_one (w : BitWriter) (counts : Array Int) (s threshold bits : Nat) (az : Bool) (fuel : Nat) :
    writeCounts w counts s 1 threshold bits az fuel = some (w, 1) := by
  cases fuel with
  | zero => rfl
  | succ fuel => simp_all [writeCounts.eq_2]

theorem extract_zeros (d : Distribution) (hs : s + z ≤ d.counts.size) (h : ∀ i < z, d.count (s + i) = 0) :
    d.counts.extract 0 s ++ Array.replicate (s + z - (d.counts.extract 0 s).size) 0 = d.counts.extract 0 (s + z) := by
  have hsize : (d.counts.extract 0 s).size = s := by simp; omega
  apply Array.ext
  · simp_all
  · intro i h1 h2
    rw [Array.size_extract] at h2
    rw [Array.getElem_append]
    split
    · simp
    · have h0 := h (i - s) (by omega)
      rw [Nat.add_sub_cancel' (by omega), count, Array.getD_eq_getD_getElem?, Array.getElem?_eq_getElem (by omega)] at h0
      simp at h0
      simp [h0]

theorem extract_push (d : Distribution) (hs : s < d.counts.size) :
    (d.counts.extract 0 s).push (d.count s) = d.counts.extract 0 (s + 1) := by
  simp_all [count]

/-- A count is read as it was written: small ones save a bit. -/
theorem readCount_eq (hhigh : left < 2 * 2 ^ k) (hx : x ≤ left)
    (hy : y = if 2 ^ k ≤ x then x + (2 * 2 ^ k - 1 - left) else x) (hn : n = if y < 2 * 2 ^ k - 1 - left then k + 1 - 1 else k + 1)
    (hv : v % 2 ^ n = y % 2 ^ n) :
    (if v % 2 ^ k < 2 * 2 ^ k - 1 - left then (v % 2 ^ k, k + 1 - 1)
      else (if 2 ^ k ≤ v % (2 * 2 ^ k) then v % (2 * 2 ^ k) - (2 * 2 ^ k - 1 - left) else v % (2 * 2 ^ k), k + 1)) = (x, n) := by
  generalize hsmall : 2 * 2 ^ k - 1 - left = small at *
  have hdouble : 2 ^ (k + 1) = 2 * 2 ^ k := Nat.pow_succ'
  by_cases hys : y < small
  · have hxk : ¬ 2 ^ k ≤ x := fun h => by
      rw [if_pos h] at hy
      omega
    simp_all [Nat.mod_eq_of_lt]
  · rw [if_neg hys] at hn
    subst hn
    have hyk : y < 2 * 2 ^ k := by
      rw [hy]
      split <;> omega
    rw [hdouble, Nat.mod_eq_of_lt hyk] at hv
    have hvk : v % 2 ^ k = y % 2 ^ k := by
      rw [← hv, Nat.mod_mod_of_dvd _ (Dvd.intro_left 2 rfl)]
    by_cases hxk : 2 ^ k ≤ x
    · rw [if_pos hxk] at hy
      have hmod : y % 2 ^ k = y - 2 ^ k := by
        rw [Nat.mod_eq_sub_mod (by omega), Nat.mod_eq_of_lt (by omega)]
      grind
    simp_all [if_neg, Nat.mod_eq_of_lt]

section

variable {d : Distribution} {b : ByteArray} {limit : Nat} {wf : BitWriter}

/-- The zeros in front of a count are passed over. -/
theorem skipZeros_writeZeros (hw : w.Sound) (hz : az = false → z = 0) :
    (if az = true then writeZeros w z (z + 1) else w).Sound ∧
      ((if az = true then writeZeros w z (z + 1) else w).Opens b →
        (if az = true then writeZeros w z (z + 1) else w).length < 8 * b.size →
        w.Opens b ∧ w.length < 8 * b.size ∧ ∀ (s : Nat) (p : Place), p.Settled b.size → p.abs = w.length →
          ∃ p', (if az = true then skipZeros b b.size p s b.size else (s, p)) = (s + z, p') ∧
            (if az = true then p'.settle b.size else p').Settled b.size ∧
            (if az = true then p'.settle b.size else p').abs = (if az = true then writeZeros w z (z + 1) else w).length) := by
  cases az with
  | false => simp_all
  | true =>
    simp only [if_true]
    obtain ⟨h1, h2, h3⟩ := writeZeros_spec (b := b) (z + 1) hw (Nat.lt_succ_self z)
    refine ⟨h1, fun ho hlt => ?_⟩
    obtain ⟨h4, h5⟩ := h3 ho
    refine ⟨h4, by omega, fun s p hp ha => ?_⟩
    obtain ⟨p', g1, g2, g3, g4, g5, g6⟩ := skipZeros_spec (Nat.mod_lt z (by omega)) b.size s hp ha h5 (by omega) (by omega)
    unfold Place.abs at g6
    obtain ⟨g7, g8⟩ := Place.settle_spec b.size g2 g3 g4 (by omega) (by unfold Place.abs; omega)
    grind [Place.abs]

/-- One round of reading: zeros lead to the symbol `s` at `p'`, and its count is `x`, less one, in `n` bits. -/
theorem readCounts_round
    (hskip : (if az = true then skipZeros b b.size p cs.size b.size else (cs.size, p)) = (s, p')) (hs : s < limit)
    (hq : (if az = true then p'.settle b.size else p') = q)
    (hval : (if q.word b % threshold < 2 * threshold - 1 - left then (q.word b % threshold, bits - 1)
      else (if threshold ≤ q.word b % (2 * threshold) then q.word b % (2 * threshold) - (2 * threshold - 1 - left)
        else q.word b % (2 * threshold), bits)) = (x, n)) (hleft : (left : Int) - ((x : Int) - 1).natAbs = left')
    (hpos : 0 < left') (fuel : Nat) :
    readCounts b b.size limit p cs left threshold bits az (fuel + 1) =
      let cs := (cs ++ Array.replicate (s - cs.size) 0).push ((x : Int) - 1)
      let q := { q with bit := q.bit + n }
      if left' < threshold ∧ left' ≤ 1 then (cs, cs.size, 1, q)
      else if limit ≤ cs.size then (cs, cs.size, left', q)
      else readCounts b b.size limit (q.settle b.size) cs left' (if left' < threshold then 2 ^ highBit left' else threshold)
        (if left' < threshold then highBit left' + 1 else bits) ((x : Int) - 1 == 0) fuel := by
  rw [readCounts, hskip]
  dsimp only
  rw [if_neg (by simp; omega), hq, hval]
  grind

/-- Counts are read as they were written, from the place at which they were. -/
theorem readCounts_writeCounts (hge : ∀ s, -1 ≤ d.count s) (hlast : d.count (d.counts.size - 1) ≠ 0) (hlimit : d.counts.size ≤ limit)
    (hsum : d.before d.counts.size ≤ 2 ^ maxLog) (hf : wf.Opens b) (fuel : Nat) :
    ∀ (w : BitWriter) (s left k : Nat) (az : Bool), writeCounts w d.counts s left (2 ^ k) (k + 1) az fuel = some (wf, 1) →
      w.Sound → 1 < left → left + d.before s = d.before d.counts.size + 1 → k = highBit left → s ≤ d.counts.size →
      w.Opens b ∧ w.length < 8 * b.size ∧ ∀ (fuel' : Nat) (p : Place), p.Settled b.size → p.abs = w.length → d.counts.size - s ≤ fuel' →
        ∃ p', readCounts b b.size limit p (d.counts.extract 0 s) left (2 ^ k) (k + 1) az fuel' = (d.counts, d.counts.size, 1, p') ∧
          0 ≤ p'.bit ∧ p'.bit ≤ 32 ∧ p'.abs = wf.length := by
  induction fuel with
  | zero =>
    intro w s left k az h hw hl
    cases h
    omega
  | succ fuel ih =>
    intro w s left k az h hw hl hbal hk hs
    have hlow : 2 ^ k ≤ left := by
      rw [hk]
      exact Nat.log2_self_le (by omega)
    have hhigh : left < 2 * 2 ^ k := by
      rw [hk, ← pow_succ']
      exact Nat.lt_log2_self
    have hmax : maxLog = 12 := rfl
    have hmost : BitWriter.mostBits = 56 := rfl
    have hk1 : 1 ≤ k := by
      rw [hk]
      exact (Nat.le_log2 (by omega)).2 hl
    have hk12 : k ≤ 12 := by
      rw [hmax] at hsum
      have : 2 ^ k < 2 ^ 13 := by omega
      have := (Nat.pow_lt_pow_iff_right (a := 2) (by omega)).1 this
      omega
    have hsize : s < d.counts.size := by
      rcases lt_or_ge s d.counts.size with h | h
      · exact h
      · obtain rfl : s = d.counts.size := by omega
        omega
    rw [writeCounts, if_neg (by omega)] at h
    dsimp only at h
    generalize hz : (if az = true then zerosFrom d.counts s (d.counts.size - s) else 0) = z at h
    have hzeros : s + z ≤ d.counts.size ∧ (∀ i < z, d.count (s + i) = 0) ∧ (az = false → z = 0) := by
      cases az with
      | false =>
        simp at hz
        subst hz
        exact ⟨by omega, nofun, fun _ => rfl⟩
      | true =>
        obtain ⟨h1, h2, -⟩ := zerosFrom_spec d (d.counts.size - s) s (by omega)
        rw [if_pos rfl] at hz
        subst hz
        exact ⟨by omega, h2, nofun⟩
    obtain ⟨hzle, hz0, hzf⟩ := hzeros
    have hbefore := before_zeros d hz0
    have hat : s + z < d.counts.size := by
      rcases lt_or_ge (s + z) d.counts.size with h | h
      · exact h
      · have : s + z = d.counts.size := by omega
        rw [this] at hbefore
        omega
    rw [if_neg (by simp; omega)] at h
    obtain ⟨hw1, hskip⟩ := skipZeros_writeZeros (b := b) hw hzf
    generalize (if az = true then writeZeros w z (z + 1) else w) = w1 at h hw1 hskip
    rw [show d.counts.getD (s + z) 0 = d.count (s + z) from rfl] at h
    -- the count itself
    have hshare : d.share (s + z) = (d.count (s + z)).natAbs := rfl
    have hnext := before_succ d (s + z)
    by_cases hrest : (left : Int) - (d.count (s + z)).natAbs < 1
    · rw [if_pos hrest] at h
      cases h
    rw [if_neg hrest] at h
    have hc := hge (s + z)
    generalize hx : (d.count (s + z) + 1).toNat = x at h
    have hxle : x ≤ left := by omega
    generalize hy : (if 2 ^ k ≤ x then x + (2 * 2 ^ k - 1 - left) else x) = y at h
    generalize hn : (if y < 2 * 2 ^ k - 1 - left then k + 1 - 1 else k + 1) = n at h
    have hnpos : 1 ≤ n ∧ n ≤ 13 := by
      rw [← hn]
      split <;> omega
    generalize hleft : ((left : Int) - (d.count (s + z)).natAbs).toNat = left' at h
    have hzero : (y == 1) = (d.count (s + z) == 0) := by
      rw [Bool.eq_iff_iff, beq_iff_eq, beq_iff_eq, ← hy]
      split <;> omega
    rw [lowerThreshold_spec (by omega) (k + 1) k (by omega) (by omega), hzero] at h
    have hw2 : (w1.addNat y n).Sound := hw1.addNat y (by omega)
    have hl2 := BitWriter.length_addNat hw1 y (n := n) (by omega)
    -- the count is read where it was written
    have hvalue (ho : (w1.addNat y n).Opens b) (p : Place) (hp : p.Settled b.size) (ha : p.abs = w1.length) :
        (if p.word b % 2 ^ k < 2 * 2 ^ k - 1 - left then (p.word b % 2 ^ k, k + 1 - 1)
          else (if 2 ^ k ≤ p.word b % (2 * 2 ^ k) then p.word b % (2 * 2 ^ k) - (2 * 2 ^ k - 1 - left)
            else p.word b % (2 * 2 ^ k), k + 1)) = (x, n) := by
      obtain ⟨-, hfield, hend⟩ := ho.prior hw1 (by omega)
      have hbits : p.bit + n ≤ 32 := by
        unfold Place.abs at ha
        rcases hp.near with h | h <;> omega
      exact readCount_eq hhigh hxle hy.symm hn.symm ((Place.word_mod hp ha hbits).trans hfield)
    have hxc : (x : Int) - 1 = d.count (s + z) := by omega
    have hcs : (d.counts.extract 0 s).size = s := by simp; omega
    -- one round of reading
    have hround (ho : (w1.addNat y n).Opens b) :
        w.Opens b ∧ w.length < 8 * b.size ∧ ∀ (fuel' : Nat) (p : Place), p.Settled b.size → p.abs = w.length →
          ∃ q : Place, q.Settled b.size ∧ q.abs = w1.length ∧
            readCounts b b.size limit p (d.counts.extract 0 s) left (2 ^ k) (k + 1) az (fuel' + 1) =
              let q := { q with bit := q.bit + n }
              if left' < 2 ^ k ∧ left' ≤ 1 then (d.counts.extract 0 (s + z + 1), s + z + 1, 1, q)
              else if limit ≤ s + z + 1 then (d.counts.extract 0 (s + z + 1), s + z + 1, left', q)
              else readCounts b b.size limit (q.settle b.size) (d.counts.extract 0 (s + z + 1)) left' (2 ^ highBit left')
                (highBit left' + 1) (d.count (s + z) == 0) fuel' := by
      obtain ⟨ho1, -, hend⟩ := ho.prior hw1 (by omega)
      obtain ⟨h1, h2, h3⟩ := hskip ho1 (by omega)
      refine ⟨h1, h2, fun fuel' p hp ha => ?_⟩
      obtain ⟨p', h4, h5, h6⟩ := h3 s p hp ha
      refine ⟨_, h5, h6, ?_⟩
      rw [readCounts_round (by rw [hcs]; exact h4) (by omega) rfl (hvalue ho _ h5 h6) (show _ = (left' : Int) by omega) (by omega) fuel',
        extract_zeros d hzle hz0, hxc, extract_push d hat]
      have hsz : (d.counts.extract 0 (s + z + 1)).size = s + z + 1 := by simp; omega
      have hbits : (if left' < 2 ^ k then 2 ^ highBit left' else 2 ^ k) = 2 ^ highBit left' ∧
          (if left' < 2 ^ k then highBit left' + 1 else k + 1) = highBit left' + 1 := by
        by_cases hlt : left' < 2 ^ k
        · rw [if_pos hlt, if_pos hlt]
          exact ⟨rfl, rfl⟩
        · have hk' : highBit left' = k := (Nat.log2_eq_iff (by omega)).2 ⟨by omega, by omega⟩
          rw [if_neg hlt, if_neg hlt, hk']
          exact ⟨rfl, rfl⟩
      dsimp only
      rw [hsz, hbits.1, hbits.2]
    rcases lt_or_ge 1 left' with hmore | hdone
    · -- more counts follow
      obtain ⟨ho, hlt, hrec⟩ := ih _ _ _ _ _ h hw2 hmore (by omega) rfl (by omega)
      obtain ⟨h1, h2, h3⟩ := hround ho
      refine ⟨h1, h2, fun fuel' p hp ha hf => ?_⟩
      obtain ⟨fuel', rfl⟩ : ∃ f, fuel' = f + 1 := ⟨fuel' - 1, by omega⟩
      obtain ⟨q, h4, h5, h6⟩ := h3 fuel' p hp ha
      have hnot : s + z + 1 < d.counts.size := by
        by_contra hge
        rw [show s + z + 1 = d.counts.size by omega] at hnext
        omega
      rw [h6]
      rw [if_neg (by omega), if_neg (by omega)]
      obtain ⟨g1, g2, g3, g4, g5⟩ := h4
      unfold Place.abs at h5
      obtain ⟨h7, h8⟩ := Place.settle_spec (p := { q with bit := q.bit + n }) b.size g1 g2 (by dsimp only; omega)
        (by dsimp only; omega) (by unfold Place.abs; dsimp only; omega)
      exact hrec fuel' _ h7 (by rw [h8, hl2]; unfold Place.abs; dsimp only; omega) (by omega)
    · -- the last count
      obtain rfl : left' = 1 := by omega
      rw [writeCounts_one] at h
      cases h
      obtain ⟨h1, h2, h3⟩ := hround hf
      refine ⟨h1, h2, fun fuel' p hp ha hf' => ?_⟩
      obtain ⟨fuel', rfl⟩ : ∃ f, fuel' = f + 1 := ⟨fuel' - 1, by omega⟩
      obtain ⟨q, h4, h5, h6⟩ := h3 fuel' p hp ha
      have hall : s + z + 1 = d.counts.size := by
        by_contra hne
        have hmono := d.before_mono (show s + z + 1 ≤ d.counts.size - 1 by omega)
        have hlast' := before_succ d (d.counts.size - 1)
        rw [Nat.sub_add_cancel (by omega), share] at hlast'
        omega
      rw [h6]
      rw [if_pos (by omega), hall, Array.extract_size]
      obtain ⟨g1, g2, g3, g4, g5⟩ := h4
      have hend := hf.le
      unfold Place.abs at h5
      exact ⟨_, rfl, by dsimp only; omega, by dsimp only; omega, by unfold Place.abs; dsimp only; omega⟩

theorem highBit_pow_add_one {log : Nat} (h : 0 < log) : highBit (2 ^ log + 1) = log := by
  have : 1 < 2 ^ log := Nat.one_lt_two_pow (by omega)
  exact (Nat.log2_eq_iff (by omega)).2 ⟨by omega, by omega⟩

theorem lowerThreshold_le (left threshold bits fuel : Nat) : (lowerThreshold left threshold bits fuel).2 ≤ bits := by
  induction fuel generalizing threshold bits with
  | zero => exact le_rfl
  | succ fuel ih =>
    rw [lowerThreshold]
    grind

theorem writeCounts_sound (counts : Array Int) (fuel : Nat) :
    ∀ {w w' : BitWriter} {s left threshold bits left' : Nat} {az : Bool}, w.Sound → bits ≤ BitWriter.mostBits →
      writeCounts w counts s left threshold bits az fuel = some (w', left') → w'.Sound := by
  induction fuel with
  | zero =>
    intro w w' s left threshold bits left' az hw _ h
    cases h
    exact hw
  | succ fuel ih =>
    intro w w' s left threshold bits left' az hw hbits h
    rw [writeCounts] at h
    generalize (if az = true then zerosFrom counts s (counts.size - s) else 0) = z at h
    have hw1 : (if az = true then writeZeros w z (z + 1) else w).Sound := by
      split
      · exact (writeZeros_spec (b := .empty) (z + 1) hw (Nat.lt_succ_self z)).1
      · exact hw
    by_cases h1 : counts.size ≤ s ∨ left ≤ 1
    · simp_all
    rw [if_neg h1] at h
    by_cases h2 : (az && decide (counts.size ≤ s + z)) = true
    · simp_all
    rw [if_neg h2] at h
    by_cases h3 : (left : Int) - (counts.getD (s + z) 0).natAbs < 1
    · rw [if_pos h3] at h
      cases h
    rw [if_neg h3] at h
    have hwidth (p : Prop) [Decidable p] : (if p then bits - 1 else bits) ≤ BitWriter.mostBits := by
      split <;> omega
    exact ih (hw1.addNat _ (hwidth _)) (le_trans (lowerThreshold_le _ _ _ _) hbits) h

theorem write_eq_some (hlog : d.log ≤ maxLog) (h : d.write = some head) :
    ∃ w : BitWriter, writeCounts (BitWriter.addNat {} (d.log - minLog) 4) d.counts 0 (2 ^ d.log + 1) (2 ^ d.log) (d.log + 1) false
      d.counts.size = some (w, 1) ∧ head = w.flush ∧ w.Sound := by
  have hmax : maxLog = 12 := rfl
  have hmost : BitWriter.mostBits = 56 := rfl
  unfold Distribution.write at h
  dsimp only at h
  rcases hr : writeCounts (BitWriter.addNat {} (d.log - minLog) 4) d.counts 0 (2 ^ d.log + 1) (2 ^ d.log) (d.log + 1) false
    d.counts.size with _ | ⟨w, left⟩
  · rw [hr] at h
    cases h
  · rw [hr] at h
    dsimp only at h
    by_cases h1 : left = 1
    · rw [if_pos h1] at h
      cases h
      exact ⟨w, by rw [h1], rfl, writeCounts_sound _ _ (BitWriter.sound_empty.addNat _ (by omega)) (by omega) hr⟩
    · rw [if_neg h1] at h
      cases h

variable (h : d.Valid) (hlast : d.count (d.counts.size - 1) ≠ 0) (hmax : d.counts.size ≤ max + 1)

include h hlast hmax

theorem readPadded_spec (hw : writeCounts (BitWriter.addNat {} (d.log - minLog) 4) d.counts 0 (2 ^ d.log + 1) (2 ^ d.log) (d.log + 1) false
      d.counts.size = some (wf, 1)) (hf : wf.Opens b) (hb : 8 ≤ b.size) :
    readPadded b max = .ok (d, (wf.length + 7) / 8) := by
  have hmin : minLog = 5 := rfl
  have hmaxlog : maxLog = 12 := rfl
  have hmost : BitWriter.mostBits = 56 := rfl
  have h5 := h.le_log
  have h12 := h.log_le
  have hstart : (BitWriter.addNat {} (d.log - minLog) 4).Sound := BitWriter.sound_empty.addNat _ (by omega)
  have hlen := BitWriter.length_addNat BitWriter.sound_empty (d.log - minLog) (n := 4) (by omega)
  have hsum : d.before d.counts.size = 2 ^ d.log := h.sum
  have hpos := Nat.two_pow_pos d.log
  obtain ⟨ho, -, hread⟩ := readCounts_writeCounts h.ge hlast hmax (by rw [hsum]; exact Nat.pow_le_pow_right (by omega) h12) hf
    d.counts.size _ 0 _ d.log false hw hstart (by omega) (by rw [hsum, before]; simp)
    (highBit_pow_add_one (by omega)).symm (Nat.zero_le _)
  obtain ⟨p', h1, h2, h3, h4⟩ := hread (max + 2) { byte := 0, bit := 4 } ⟨by decide, by dsimp only; omega, by decide, by decide, .inl (by decide)⟩
    (by rfl) (by omega)
  obtain ⟨-, hfield, -⟩ := ho.prior BitWriter.sound_empty (by omega)
  have hlog : natAt b 0 % 16 + minLog = d.log := by
    rw [natAt_eq_number, pow_zero, Nat.div_one]
    rw [BitWriter.length_empty, pow_zero, Nat.div_one] at hfield
    omega
  have hempty : d.counts.extract 0 0 = #[] := by simp
  rw [hempty] at h1
  unfold readPadded
  rw [hlog, if_neg (by omega), h1]
  dsimp only
  have hdiv : (p'.bit + 7).fdiv 8 = (p'.bit + 7) / 8 := Int.fdiv_eq_ediv_of_nonneg _ (by omega)
  unfold Place.abs at h4
  rw [if_neg (by omega), if_neg (by omega), if_neg (by omega), hdiv,
    show (p'.byte + (p'.bit + 7) / 8).toNat = (wf.length + 7) / 8 by omega]

theorem Distribution.read_write (hw : d.write = some head) (rest : ByteArray) :
    Distribution.read (head ++ rest) max = .ok (d, head.size) := by
  obtain ⟨w, hcounts, rfl, hsound⟩ := write_eq_some h.log_le hw
  obtain ⟨-, hsize⟩ := BitWriter.flush_spec hsound
  unfold Distribution.read
  by_cases hb : (w.flush ++ rest).size < 8
  · rw [if_pos hb, append_assoc, readPadded_spec h hlast hmax hcounts (BitWriter.opens_flush hsound _)
      (by grind [size_replicate])]
    show (if (w.flush ++ rest).size < _ then _ else _) = _
    simp_all
  · rw [if_neg hb, readPadded_spec h hlast hmax hcounts (BitWriter.opens_flush hsound _) (by omega), hsize]

end

/-! ### What is read is valid -/

/-- Counts of which all but `left` states, less one, have been given away. -/
structure Tally (total limit : Nat) (cs : Array Int) (left : Nat) : Prop where
  ge : ∀ c ∈ cs, -1 ≤ c
  sum : (cs.toList.map Int.natAbs).sum + left = total + 1
  le : cs.size ≤ limit

theorem Tally.round (h : Tally total limit cs left) (hs : s < limit)
    (hcs : cs.size ≤ s) (hc : -1 ≤ c) (hleft : (left : Int) - c.natAbs = left') :
    Tally total limit ((cs ++ Array.replicate (s - cs.size) 0).push c) left' where
  ge x hx := by
    rw [Array.mem_push, Array.mem_append] at hx
    rcases hx with (hx | hx) | rfl
    · exact h.ge x hx
    · simp_all
    · exact hc
  sum := by
    have hsum := h.sum
    simp only [Array.toList_push, Array.toList_append, Array.toList_replicate, List.map_append, List.sum_append, List.map_replicate,
      List.map_cons, List.map_nil, List.sum_cons, List.sum_nil, Int.natAbs_zero, List.sum_replicate_nat, mul_zero]
    omega
  le := by
    grind

theorem skipZeros_le (b : ByteArray) (size : Int) (fuel : Nat) : ∀ (p : Place) (s : Nat), s ≤ (skipZeros b size p s fuel).1 := by
  induction fuel with
  | zero => exact fun p s => le_rfl
  | succ fuel ih =>
    grind [skipZeros]

theorem readCounts_tally (b : ByteArray) (size : Int) (limit total fuel : Nat) :
    ∀ (p : Place) (cs : Array Int) (left threshold bits : Nat) (az : Bool), Tally total limit cs left → 1 < left → 1 < threshold →
      cs.size < limit → (readCounts b size limit p cs left threshold bits az fuel).2.2.1 = 1 →
      Tally total limit (readCounts b size limit p cs left threshold bits az fuel).1 1 := by
  induction fuel with
  | zero =>
    intro p cs left threshold bits az _ hl _ _ h
    have : left = 1 := h
    omega
  | succ fuel ih =>
    intro p cs left threshold bits az ht hl hth hcs
    rw [readCounts]
    have hskip : cs.size ≤ (if az = true then skipZeros b size p cs.size b.size else (cs.size, p)).1 ∧
        (az = false → (if az = true then skipZeros b size p cs.size b.size else (cs.size, p)).1 = cs.size) := by
      split
      · exact ⟨skipZeros_le _ _ _ _ _, by simp_all⟩
      · exact ⟨le_rfl, fun _ => rfl⟩
    generalize (if az = true then skipZeros b size p cs.size b.size else (cs.size, p)) = r at hskip ⊢
    obtain ⟨s, p'⟩ := r
    dsimp only at hskip ⊢
    by_cases hlim : (az && decide (limit ≤ s)) = true
    · grind
    rw [if_neg hlim]
    have hs : s < limit := by
      cases az with
      | false =>
        have := hskip.2 rfl
        omega
      | true => simpa using hlim
    generalize (if az = true then p'.settle size else p') = q
    -- whatever the count is
    generalize (if q.word b % threshold < 2 * threshold - 1 - left then (q.word b % threshold, bits - 1)
      else (if threshold ≤ q.word b % (2 * threshold) then q.word b % (2 * threshold) - (2 * threshold - 1 - left)
        else q.word b % (2 * threshold), bits)) = r
    obtain ⟨x, n⟩ := r
    by_cases hend : (left : Int) - ((x : Int) - 1).natAbs < threshold ∧ (left : Int) - ((x : Int) - 1).natAbs ≤ 1
    · rw [if_pos hend]
      intro h
      have hone : (left : Int) - ((x : Int) - 1).natAbs = (1 : Nat) := by
        split at h
        · assumption
        · cases h
      exact ht.round hs hskip.1 (by omega) hone
    obtain ⟨left', hleft⟩ : ∃ l : Nat, (left : Int) - ((x : Int) - 1).natAbs = l := ⟨_, (Int.toNat_of_nonneg (by omega)).symm⟩
    have hround := ht.round hs hskip.1 (show -1 ≤ (x : Int) - 1 by omega) hleft
    have hth' : 1 < (if left' < threshold then (2 ^ highBit left', highBit left' + 1) else (threshold, bits)).1 := by
      split
      · exact Nat.one_lt_two_pow (Nat.pos_iff_ne_zero.1 ((Nat.le_log2 (by omega)).2 (show 2 ^ 1 ≤ left' by omega)))
      · exact hth
    grind

theorem readPadded_valid (h : readPadded b max = .ok (d, n)) :
    minLog ≤ d.log ∧ (∀ s, -1 ≤ d.count s) ∧ d.before d.counts.size = 2 ^ d.log ∧ d.counts.size ≤ max + 1 := by
  unfold readPadded at h
  dsimp only at h
  generalize hlog : natAt b 0 % 16 + minLog = log at h
  have hmin : minLog = 5 := rfl
  have hpos : 1 < 2 ^ log := Nat.one_lt_two_pow (by omega)
  have htally := readCounts_tally b b.size (max + 1) (2 ^ log) (max + 2) { byte := 0, bit := 4 } #[]
    (2 ^ log + 1) (2 ^ log) (log + 1) false ⟨by simp, by simp, by simp⟩ (by omega) hpos (by simp)
  generalize readCounts b b.size (max + 1) { byte := 0, bit := 4 } #[] (2 ^ log + 1) (2 ^ log) (log + 1) false (max + 2) = r at h htally
  obtain ⟨cs, s, left, p⟩ := r
  by_cases h1 : 15 < log
  · rw [if_pos h1] at h
    cases h
  by_cases h2 : left ≠ 1
  · simp_all
  by_cases h3 : max + 1 < s
  · simp_all
  by_cases h4 : 32 < p.bit
  · simp_all
  rw [if_neg h1, if_neg h2, if_neg h3, if_neg h4] at h
  cases h
  obtain ⟨hge, hsum, hle⟩ := htally (not_not.1 h2)
  refine ⟨by dsimp only; omega, fun t => ?_, ?_, hle⟩
  · rw [count, Array.getD_eq_getD_getElem?]
    grind [Array.getElem_mem]
  · rw [toList_eq_map_getD cs 0, List.map_map] at hsum
    exact Nat.succ.inj hsum

theorem Distribution.read_valid (h : Distribution.read b max = .ok (d, n))
    (hlog : d.log ≤ maxLog) : d.Valid ∧ d.counts.size ≤ max + 1 := by
  have hpadded : ∃ b n, readPadded b max = .ok (d, n) := by
    unfold Distribution.read at h
    by_cases hb : b.size < 8
    · rw [if_pos hb] at h
      rcases hr : readPadded (b ++ replicate (8 - b.size) 0) max with e | ⟨d', n'⟩
      · rw [hr] at h
        cases h
      · rw [hr] at h
        change (if b.size < n' then _ else _) = _ at h
        grind
    · grind
  obtain ⟨b, n, h⟩ := hpadded
  obtain ⟨h1, h2, h3, h4⟩ := readPadded_valid h
  exact ⟨⟨h1, hlog, h2, h3⟩, h4⟩

end ZstCodec.Fse
