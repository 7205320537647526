import ZstCodec.Huffman.Decode
import ZstCodec.Proofs.Huffman.Limit

/-! # Canonical codes and their tables

The weights of a code lay the symbols out side by side, light ones first, and fill the code space. A symbol's code is
its place in units of its own size, and the decoding table holds it on exactly the look-ups that start with that code. -/

namespace ZstCodec.Huffman

open Finset

variable {s v : Nat}

namespace WeightTable

def weight (t : WeightTable) (s : Nat) : Nat := t.weights.getD s 0

/-- The part of the code space that a weight takes. -/
def room (w : Nat) : Nat := if w = 0 then 0 else 2 ^ (w - 1)

theorem room_succ (w : Nat) : room (w + 1) = 2 ^ w := rfl

theorem room_eq (w : Nat) : 2 ^ w / 2 = room w := by
  rcases w with _ | w
  · rfl
  simp [room_succ, pow_succ]

/-- The weights of a code that fills its space. -/
structure Full (t : WeightTable) : Prop where
  log_pos : 0 < t.log
  log_le : t.log ≤ widthLimit
  le : ∀ s, t.weight s ≤ t.log
  size_le : t.weights.size ≤ 256
  sum : ∑ s ∈ range t.weights.size, room (t.weight s) = 2 ^ t.log

variable {t : WeightTable}

theorem weight_of_ge (h : t.weights.size ≤ s) : t.weight s = 0 := by
  simp_all [weight]

theorem lt_of_weight (h : t.weight s ≠ 0) : s < t.weights.size := by
  grind [weight_of_ge]

/-! ### The layout -/

/-- The space of all symbols lighter than `w`. -/
def below (t : WeightTable) (w : Nat) : Nat := ∑ s ∈ range t.weights.size, if t.weight s < w then room (t.weight s) else 0

/-- How many of the first `k` symbols have weight `w`. -/
def among (t : WeightTable) (w k : Nat) : Nat := ∑ s ∈ range k, if t.weight s = w then 1 else 0

def place (t : WeightTable) (s : Nat) : Nat := t.below (t.weight s) + t.among (t.weight s) s * room (t.weight s)

theorem among_succ (t : WeightTable) (w k : Nat) : t.among w (k + 1) = t.among w k + if t.weight k = w then 1 else 0 := sum_range_succ _ _

theorem below_one (t : WeightTable) : t.below 1 = 0 :=
  sum_eq_zero fun s _ => by
    by_cases h : t.weight s < 1
    · rw [if_pos h, show t.weight s = 0 by omega]
      rfl
    · rw [if_neg h]

theorem below_succ (t : WeightTable) (w : Nat) : t.below (w + 1) = t.below w + t.among w t.weights.size * room w := by
  unfold below among
  rw [sum_mul, ← sum_add_distrib]
  grind

theorem below_mono (t : WeightTable) (h : w ≤ w') : t.below w ≤ t.below w' := by
  induction w', h using Nat.le_induction with
  | base => exact le_rfl
  | succ w' _ ih =>
    rw [below_succ]
    omega

theorem among_mono (t : WeightTable) (w : Nat) (h : k ≤ k') : t.among w k ≤ t.among w k' :=
  sum_le_sum_of_subset (range_mono h)

/-- Symbols of a weight end where those of the next begin. -/
theorem place_add_room_le (t : WeightTable) (hs : t.weight s ≠ 0) : t.place s + room (t.weight s) ≤ t.below (t.weight s + 1) := by
  have h1 : t.among (t.weight s) (s + 1) = t.among (t.weight s) s + 1 := by rw [among_succ, if_pos rfl]
  have h2 := t.among_mono (t.weight s) (lt_of_weight hs)
  rw [Nat.succ_eq_add_one, h1] at h2
  have h3 := Nat.mul_le_mul_right (room (t.weight s)) h2
  rw [add_mul, one_mul] at h3
  rw [below_succ, place]
  omega

theorem Full.below_top (h : t.Full) : t.below (t.log + 1) = 2 ^ t.log := by
  rw [← h.sum]
  exact sum_congr rfl fun s _ => if_pos (Nat.lt_succ_of_le (h.le s))

/-- The space below a weight is a whole number of symbols of that weight. -/
theorem Full.dvd_below (h : t.Full) (hw : w ≤ t.log) : 2 ^ w ∣ t.below (w + 1) := by
  have hsplit : t.below (w + 1) + ∑ s ∈ range t.weights.size, (if t.weight s < w + 1 then 0 else room (t.weight s)) = 2 ^ t.log := by
    rw [← h.sum, below, ← sum_add_distrib]
    refine sum_congr rfl fun s _ => ?_
    by_cases hs : t.weight s < w + 1
    · rw [if_pos hs, if_pos hs, add_zero]
    · rw [if_neg hs, if_neg hs, zero_add]
  have hrest : 2 ^ w ∣ ∑ s ∈ range t.weights.size, (if t.weight s < w + 1 then 0 else room (t.weight s)) := by
    refine dvd_sum fun s _ => ?_
    by_cases hs : t.weight s < w + 1
    · simp_all
    · rw [if_neg hs, room, if_neg (by omega)]
      exact Nat.pow_dvd_pow 2 (by omega)
  grind [Nat.pow_dvd_pow, Nat.dvd_add_iff_left]

/-! ### The decoding table -/

/-- The table after the lighter symbols and the first `k` of weight `w`, each on `m` look-ups for a unit of space. -/
structure Entered (t : WeightTable) (m w k : Nat) (acc : ByteArray × ByteArray) : Prop where
  size : acc.1.size = (t.below w + t.among w k * room w) * m
  size' : acc.2.size = acc.1.size
  entry : ∀ s, t.weight s ≠ 0 → t.weight s < w ∨ t.weight s = w ∧ s < k → ∀ v, t.place s * m ≤ v →
    v < (t.place s + room (t.weight s)) * m → byteAt acc.1 v = s.toUInt8 ∧ natAt acc.2 v = t.log + 1 - t.weight s
  covered : ∀ v < acc.1.size, ∃ s, t.weight s ≠ 0 ∧ t.place s * m ≤ v ∧ v < (t.place s + room (t.weight s)) * m

theorem place_add_room_le_of_entered (hs : t.weight s ≠ 0) (h : t.weight s < w ∨ t.weight s = w ∧ s < k) :
    t.place s + room (t.weight s) ≤ t.below w + t.among w k * room w := by
  rcases h with hlt | ⟨rfl, hk⟩
  · have h1 := t.place_add_room_le hs
    have h2 := t.below_mono (show t.weight s + 1 ≤ w from hlt)
    omega
  · have h1 : t.among (t.weight s) (s + 1) = t.among (t.weight s) s + 1 := by rw [among_succ, if_pos rfl]
    have h2 := Nat.mul_le_mul_right (room (t.weight s)) (t.among_mono (t.weight s) hk)
    rw [Nat.succ_eq_add_one, h1, add_mul, one_mul] at h2
    rw [place]
    omega

namespace Entered

variable {m w k : Nat} {acc : ByteArray × ByteArray}

theorem push (h : t.Full) (ha : t.Entered m w k acc) (hk : t.weight k = w) (hw : w ≠ 0) :
    t.Entered m w (k + 1) (pushMany acc.1 k.toUInt8 (room w * m), pushMany acc.2 (t.log + 1 - w).toUInt8 (room w * m)) := by
  have hamong : t.among w (k + 1) = t.among w k + 1 := by rw [among_succ, if_pos hk]
  have hplace : acc.1.size = t.place k * m := by rw [ha.size, place, hk]
  have hwidth : ((t.log + 1 - w).toUInt8).toNat = t.log + 1 - w := by
    have := h.log_le
    have hlimit : widthLimit = 12 := rfl
    exact Nat.mod_eq_of_lt (by omega)
  refine ⟨?_, ?_, fun s hs hin v h1 h2 => ?_, fun v hv => ?_⟩
  · rw [size_pushMany, ha.size, hamong, ← add_mul, add_mul (t.among w k) 1, one_mul, add_assoc]
  · grind [size_pushMany, size']
  · by_cases hsk : t.weight s = w ∧ s = k
    · grind [byteAt_pushMany, natAt.eq_1, size']
    · have hbefore : t.weight s < w ∨ t.weight s = w ∧ s < k := by omega
      have hlt := Nat.mul_le_mul_right m (place_add_room_le_of_entered hs hbefore)
      rw [← ha.size] at hlt
      have hin : v < acc.1.size := by omega
      rw [natAt, byteAt_pushMany, byteAt_pushMany, ha.size']
      simp only [if_pos hin]
      exact ha.entry s hs hbefore v h1 h2
  · rw [size_pushMany] at hv
    rcases lt_or_ge v acc.1.size with hlt | hge
    · exact ha.covered v hlt
    grind

theorem skip (ha : t.Entered m w k acc) (hk : t.weight k ≠ w) : t.Entered m w (k + 1) acc := by
  refine ⟨by rw [among_succ, if_neg hk, add_zero]; exact ha.size, ha.size', fun s hs hin => ha.entry s hs ?_, ha.covered⟩
  grind

theorem fillWeight (h : t.Full) (ha : t.Entered m w 0 acc) (hw : w ≠ 0) :
    t.Entered m (w + 1) 0 (Huffman.fillWeight t.weights w (room w * m) (t.log + 1 - w) acc) := by
  have hall : t.Entered m w t.weights.size (Huffman.fillWeight t.weights w (room w * m) (t.log + 1 - w) acc) := by
    refine Fse.foldl_range (fun k acc => t.Entered m w k acc) _ _ _ ha fun k acc _ hacc => ?_
    rw [show t.weights.getD k 0 = t.weight k from rfl]
    by_cases hk : t.weight k = w
    · rw [if_pos hk]
      exact hacc.push h hk hw
    · rw [if_neg hk]
      exact hacc.skip hk
  refine ⟨?_, hall.size', fun s hs hin => hall.entry s hs ?_, hall.covered⟩
  · rw [hall.size, ← below_succ]
    simp [among]
  · have := lt_of_weight hs
    omega

end Entered

theorem decoder_log (t : WeightTable) (reading : Reading) : (t.decoder reading).log = max t.log 11 := rfl

theorem entered_decoder (h : t.Full) (reading : Reading) :
    t.Entered (2 ^ (max t.log 11 - t.log)) (t.log + 1) 0 ((t.decoder reading).symbols, (t.decoder reading).widths) := by
  have hfold := Fse.foldl_range (fun i acc => t.Entered (2 ^ (max t.log 11 - t.log)) (i + 1) 0 acc)
    (fun acc i => fillWeight t.weights (i + 1) (2 ^ (i + (max t.log 11 - t.log))) (t.log - i) acc)
    (.empty, .empty) t.log ⟨?_, rfl, fun s hs hin => ?_, fun v hv => absurd hv (Nat.not_lt_zero v)⟩ ?_
  · exact hfold
  · rw [below_one]
    simp [among]
  · omega
  · intro i acc hi hacc
    have := hacc.fillWeight h (Nat.succ_ne_zero i)
    simp_all [room_succ, pow_add]

theorem exists_place (h : t.Full) (hv : v < 2 ^ max t.log 11) :
    ∃ s, t.weight s ≠ 0 ∧ t.place s * 2 ^ (max t.log 11 - t.log) ≤ v ∧
      v < (t.place s + room (t.weight s)) * 2 ^ (max t.log 11 - t.log) := by
  have hent := t.entered_decoder h .singly
  refine hent.covered v ?_
  rw [hent.size, h.below_top]
  show v < (2 ^ t.log + 0 * room (t.log + 1)) * 2 ^ (max t.log 11 - t.log)
  rw [zero_mul, add_zero, ← pow_add, Nat.add_sub_cancel' (le_max_left _ _)]
  exact hv

/-- A look-up within the space of a symbol gives the symbol and its width. -/
theorem lookUp_of_place (h : t.Full) (reading : Reading) (hs : t.weight s ≠ 0)
    (h1 : t.place s * 2 ^ (max t.log 11 - t.log) ≤ v) (h2 : v < (t.place s + room (t.weight s)) * 2 ^ (max t.log 11 - t.log)) :
    (t.decoder reading).lookUp v = (s.toUInt8, t.log + 1 - t.weight s) := by
  obtain ⟨h3, h4⟩ := (t.entered_decoder h reading).entry s hs (.inl (Nat.lt_succ_of_le (h.le s))) v h1 h2
  exact Prod.ext h3 h4

/-! ### Canonical values -/

def widthOf (log w : Nat) : Nat := if w = 0 then 0 else log + 1 - w

theorem code_widths (t : WeightTable) (s : Nat) : t.code.widths.getD s 0 = widthOf t.log (t.weight s) := by
  show (t.weights.map fun w => if w = 0 then 0 else t.log + 1 - w).getD s 0 = _
  rcases lt_or_ge s t.weights.size with hs | hs
  · simp_all [widthOf, weight]
  simp_all [widthOf, weight]

theorem per_spec (widths : Array Nat) (h : ∀ s, widths.getD s 0 < 16) (w : Nat) :
    (widths.foldl (fun (a : Array Nat) w => a.modify w (· + 1)) (Array.replicate 16 0)).getD w 0 =
      ∑ s ∈ range widths.size, if widths.getD s 0 = w then 1 else 0 := by
  have hfold := Fse.foldl_getD widths 0
    (fun k (a : Array Nat) => a.size = 16 ∧ ∀ w, a.getD w 0 = ∑ s ∈ range k, if widths.getD s 0 = w then 1 else 0)
    (fun (a : Array Nat) w => a.modify w (· + 1)) (Array.replicate 16 0) ⟨by simp, fun w => ?_⟩ ?_
  · exact hfold.2 w
  · by_cases hw : w < 16 <;> simp [Array.getD_eq_getD_getElem?, hw]
  · rintro k a hk ⟨h1, h2⟩
    refine ⟨by simpa using h1, fun w => ?_⟩
    rw [Histogram.getD_modify _ (by rw [h1]; exact h k), h2, sum_range_succ]
    simp only [eq_comm]

theorem among_eq (t : WeightTable) (h : ∀ s, t.weight s ≤ t.log) (hw : w ≠ 0) (hw' : w ≤ t.log) (k : Nat) :
    (∑ s ∈ range k, if t.code.widths.getD s 0 = t.log + 1 - w then 1 else 0) = t.among w k := by
  refine sum_congr rfl fun s _ => ?_
  rw [code_widths, widthOf]
  grind

theorem size_firstValues (log : Nat) (widths : Array Nat) : (Code.firstValues log widths).size = 16 := by
  refine Fse.foldl_range (fun _ (acc : Array Nat × Nat) => acc.1.size = 16) _ _ _ (by simp) ?_
  simp

/-- The first value of a width counts the space below in units of that width. -/
theorem firstValues_spec (h : t.Full) (hw : w ≠ 0) (hw' : w ≤ t.log) :
    (Code.firstValues t.log t.code.widths).getD (t.log + 1 - w) 0 * room w = t.below w := by
  have hlog := h.log_le
  have hlimit : widthLimit = 12 := rfl
  have hwidth : ∀ s, t.code.widths.getD s 0 < 16 := fun s => by
    rw [code_widths, widthOf]
    split <;> omega
  have hfold := Fse.foldl_range (fun i (acc : Array Nat × Nat) => acc.1.size = 16 ∧ acc.2 * 2 ^ i = t.below (i + 1) ∧
      ∀ w, w ≠ 0 → w ≤ i → acc.1.getD (t.log + 1 - w) 0 * room w = t.below w)
    (fun (acc : Array Nat × Nat) i =>
      let w := t.log - i
      (acc.1.setIfInBounds w acc.2, (acc.2 + (t.code.widths.foldl (fun (a : Array Nat) w => a.modify w (· + 1))
        (Array.replicate 16 0)).getD w 0) / 2)) (Array.replicate 16 0, 0) t.log ⟨by simp, ?_, fun w h1 h2 => by omega⟩ ?_
  · exact hfold.2.2 w hw hw'
  · rw [below_one]
    rfl
  · rintro i ⟨first, v⟩ hi ⟨h1, h2, h3⟩
    dsimp only at h1 h2 h3 ⊢
    refine ⟨by simpa using h1, ?_, fun w hw0 hwi => ?_⟩
    · -- the space below is a whole number of the next larger units, so the halving is exact
      obtain ⟨x, hx⟩ := h.dvd_below (w := i + 1) (by omega)
      rw [per_spec _ hwidth, show t.log - i = t.log + 1 - (i + 1) by omega, show t.code.widths.size = t.weights.size from Array.size_map,
        t.among_eq h.le (by omega) (by omega)]
      have hnext : (v + t.among (i + 1) t.weights.size) * 2 ^ i = t.below (i + 1 + 1) := by
        rw [add_mul, h2, t.below_succ (i + 1), room_succ]
      have hhalf : v + t.among (i + 1) t.weights.size = 2 * x := by
        refine Nat.eq_of_mul_eq_mul_right (Nat.two_pow_pos i) ?_
        rw [hnext, hx, pow_succ, mul_assoc, mul_comm]
      grind
    · rcases lt_or_eq_of_le hwi with hwi | rfl
      · rw [Fse.getD_set_ne _ _ _ (by omega)]
        exact h3 w hw0 (by omega)
      · rw [show t.log + 1 - (i + 1) = t.log - i by omega, Fse.getD_set_self _ _ _ (by omega), room_succ, h2]

/-- The code of a symbol is its place in units of its own size. -/
theorem values_spec (h : t.Full) (hs : t.weight s ≠ 0) : t.code.values.getD s 0 * room (t.weight s) = t.place s := by
  have hlog := h.log_le
  have hlimit : widthLimit = 12 := rfl
  have hfold := Fse.foldl_getD t.code.widths 0
    (fun k (acc : Array Nat × Array Nat) => acc.2.size = k ∧ acc.1.size = 16 ∧
      (∀ w, w ≠ 0 → w ≤ t.log → acc.1.getD (t.log + 1 - w) 0 = (Code.firstValues t.log t.code.widths).getD (t.log + 1 - w) 0 + t.among w k) ∧
      ∀ s < k, t.weight s ≠ 0 → acc.2.getD s 0 =
        (Code.firstValues t.log t.code.widths).getD (t.log + 1 - t.weight s) 0 + t.among (t.weight s) s)
    (fun (acc : Array Nat × Array Nat) w =>
      let v := acc.1.getD w 0
      (acc.1.setIfInBounds w (v + 1), acc.2.push (if w = 0 then 0 else v))) (Code.firstValues t.log t.code.widths, #[])
    ⟨rfl, ?_, fun w _ _ => by simp [among], fun _ hs => absurd hs (Nat.not_lt_zero _)⟩ ?_
  · have hlt : s < t.code.widths.size := by
      rw [show t.code.widths.size = t.weights.size from Array.size_map]
      exact lt_of_weight hs
    have hvalue : t.code.values.getD s 0 = _ := hfold.2.2.2 s hlt hs
    rw [hvalue, add_mul, firstValues_spec h hs (h.le s), place]
  · exact size_firstValues _ _
  · rintro k ⟨next, values⟩ hk ⟨h1, h2, h3, h4⟩
    dsimp only at h1 h2 h3 h4 ⊢
    rw [code_widths, widthOf]
    have hle := h.le k
    by_cases hk0 : t.weight k = 0
    · rw [if_pos hk0, if_pos rfl]
      refine ⟨by rw [Array.size_push, h1], by simpa using h2, fun w hw hw' => ?_, fun s hs hsw => ?_⟩
      · rw [Fse.getD_set_ne _ _ _ (by omega), h3 w hw hw', among_succ, if_neg (by omega)]
        rfl
      · have hsk : s < k := lt_of_le_of_ne (Nat.le_of_lt_succ hs) (by rintro rfl; exact hsw hk0)
        rw [Fse.getD_push_lt _ _ _ h1 hsk]
        exact h4 s hsk hsw
    · rw [if_neg hk0, if_neg (by omega)]
      refine ⟨by rw [Array.size_push, h1], by simpa using h2, fun w hw hw' => ?_, fun s hs hsw => ?_⟩
      · rw [among_succ]
        by_cases hwk : t.weight k = w
        · rw [hwk, Fse.getD_set_self _ _ _ (by omega), h3 w hw hw', if_pos rfl]
          omega
        · rw [Fse.getD_set_ne _ _ _ (by omega), h3 w hw hw', if_neg hwk]
          rfl
      · rcases lt_or_eq_of_le (Nat.le_of_lt_succ hs) with hs | rfl
        · rw [Fse.getD_push_lt _ _ _ h1 hs]
          exact h4 s hs hsw
        · rw [Fse.getD_push_self _ _ _ h1]
          exact h3 _ hk0 hle

/-! ### Codes and look-ups -/

def lookLog (t : WeightTable) : Nat := max t.log 11

theorem width_le (h : t.Full) (hs : t.weight s ≠ 0) :
    t.code.width s = t.log + 1 - t.weight s ∧ 0 < t.code.width s ∧ t.code.width s ≤ t.lookLog := by
  have hw : t.code.width s = t.log + 1 - t.weight s := by
    rw [show t.code.width s = t.code.widths.getD s 0 from rfl, code_widths, widthOf, if_neg hs]
  have h1 := h.le s
  have h2 : t.log ≤ t.lookLog := le_max_left _ _
  exact ⟨hw, by omega, by omega⟩

/-- A look-up starts with the code of a symbol. -/
def Starts (t : WeightTable) (s v : Nat) : Prop :=
  t.weight s ≠ 0 ∧ v / 2 ^ (t.lookLog - t.code.width s) = t.code.values.getD s 0

theorem starts_iff (h : t.Full) (hs : t.weight s ≠ 0) :
    t.Starts s v ↔ t.place s * 2 ^ (t.lookLog - t.log) ≤ v ∧ v < (t.place s + room (t.weight s)) * 2 ^ (t.lookLog - t.log) := by
  obtain ⟨hw, h1, h2⟩ := width_le h hs
  have h3 : t.log ≤ t.lookLog := le_max_left _ _
  have hroom : room (t.weight s) * 2 ^ (t.lookLog - t.log) = 2 ^ (t.lookLog - t.code.width s) := by
    rw [room, if_neg hs, ← pow_add]
    congr 1
    omega
  rw [← values_spec h hs, add_mul, mul_assoc, hroom, Starts, Nat.div_eq_iff (Nat.two_pow_pos _)]
  grind

theorem lookUp_of_starts (h : t.Full) (reading : Reading) (hv : t.Starts s v) :
    (t.decoder reading).lookUp v = (s.toUInt8, t.code.width s) := by
  obtain ⟨h1, h2⟩ := (starts_iff h hv.1).1 hv
  rw [(width_le h hv.1).1]
  exact lookUp_of_place h reading hv.1 h1 h2

theorem exists_starts (h : t.Full) (hv : v < 2 ^ t.lookLog) : ∃ s, t.Starts s v := by
  obtain ⟨s, hs, hp⟩ := exists_place h hv
  exact ⟨s, (starts_iff h hs).2 hp⟩

theorem value_lt (h : t.Full) (hs : t.weight s ≠ 0) : t.code.values.getD s 0 < 2 ^ t.code.width s := by
  obtain ⟨hw, h1, h2⟩ := width_le h hs
  have h5 := t.place_add_room_le hs
  have h6 := t.below_mono (show t.weight s + 1 ≤ t.log + 1 by omega)
  rw [h.below_top] at h6
  have hroom : 2 ^ t.log = 2 ^ t.code.width s * room (t.weight s) := by
    rw [room, if_neg hs, ← pow_add]
    congr 1
    omega
  refine Nat.lt_of_mul_lt_mul_right (a := room (t.weight s)) ?_
  have hpos : 0 < room (t.weight s) := by
    rw [room, if_neg hs]
    exact Nat.two_pow_pos _
  grind [values_spec]

end WeightTable

end ZstCodec.Huffman
