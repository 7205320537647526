import ZstCodec.Proofs.Huffman.Depth

/-! # Limiting the depth

Depths beyond the target are cut, which overfills the code space; the debt is paid by lengthening shorter codes. A
payment may be too large only when no symbol stands near the target. Then enough stand at the target itself to take the
change: the others, no shallower than before the cut, do not fill the code space. -/

namespace ZstCodec.Huffman

open Finset Fse

variable {i k p : Nat}

/-! ### Cutting -/

/-- Depths that agree with `o` before place `n` and are cut to the target from there on; the debt is what they take too
much of the code space. -/
structure CutFrom (o : Array Nat) (largest target n : Nat) (d : Array Nat) (debt : Int) : Prop where
  size : d.size = o.size
  low : ∀ i < n, d.getD i 0 = o.getD i 0
  high : ∀ i, n ≤ i → i < o.size → target < o.getD i 0 ∧ d.getD i 0 = target
  balance : debt + ((∑ i ∈ range o.size, 2 ^ (largest - o.getD i 0) : Nat) : Int) =
    (∑ i ∈ range o.size, 2 ^ (largest - d.getD i 0) : Nat)

theorem shorten_spec (largest target : Nat) (hmono : ∀ i j, i ≤ j → j < o.size → o.getD i 0 ≤ o.getD j 0) (n : Nat)
    (d : Array Nat) (debt : Int) (hn : n ≤ o.size) (h : CutFrom o largest target n d debt) :
    ∃ d' debt' n', shorten d largest target debt n = (d', debt', n') ∧ n' ≤ o.size ∧ (∀ i < n', o.getD i 0 ≤ target) ∧
      CutFrom o largest target n' d' debt' := by
  induction n generalizing d debt with
  | zero => exact ⟨d, debt, 0, rfl, Nat.zero_le _, nofun, h⟩
  | succ n ih =>
    rw [shorten, h.low n (Nat.lt_succ_self n)]
    by_cases hc : target < o.getD n 0
    · rw [if_pos hc]
      have hself : (d.setIfInBounds n target).getD n 0 = target := getD_set_self _ _ _ (by rw [h.size]; omega)
      have hne : ∀ i, i ≠ n → (d.setIfInBounds n target).getD i 0 = d.getD i 0 := fun i hi => getD_set_ne _ _ _ hi
      refine ih _ _ (by omega) ⟨by simpa using h.size, fun i hi => ?_, fun i h1 h2 => ?_, ?_⟩
      · rw [hne i (by omega)]
        exact h.low i (by omega)
      · rcases eq_or_lt_of_le h1 with rfl | h1
        · exact ⟨hc, hself⟩
        · rw [hne i (by omega)]
          exact h.high i h1 h2
      · have hsum := sum_range_set (f := fun i => 2 ^ (largest - d.getD i 0))
          (g := fun i => 2 ^ (largest - (d.setIfInBounds n target).getD i 0)) (show n < o.size by omega)
          fun t _ ht => by simp only [hne t ht]
        simp only [hself, h.low n (Nat.lt_succ_self n)] at hsum
        have := h.balance
        omega
    grind

theorem beforeRun_spec (d : Array Nat) (target n : Nat) :
    beforeRun d target n ≤ n ∧ (∀ i, beforeRun d target n ≤ i → i < n → d.getD i 0 = target) ∧
      ∀ m, beforeRun d target n = m + 1 → d.getD m 0 ≠ target := by
  induction n with
  | zero => exact ⟨Nat.le_refl 0, fun i _ hi => absurd hi (Nat.not_lt_zero i), nofun⟩
  | succ n ih =>
    grind [beforeRun.eq_2]

/-! ### Where symbols stand -/

/-- The last place at distance `k` from the target. -/
def IsLast (d : Array Nat) (target k p : Nat) : Prop :=
  p < d.size ∧ d.getD p 0 + k = target ∧ ∀ q, p < q → q < d.size → d.getD q 0 + k ≠ target

theorem IsLast.unique (hp : IsLast d target k p) (hq : IsLast d target k q) : p = q := by
  obtain ⟨h1, h2, h3⟩ := hp
  obtain ⟨h4, h5, h6⟩ := hq
  grind

theorem exists_isLast (hi : i < d.size) (hk : d.getD i 0 + k = target) : ∃ p, IsLast d target k p := by
  induction hm : d.size - i using Nat.strong_induction_on generalizing i with
  | _ m ih =>
    by_cases h : ∃ q, i < q ∧ q < d.size ∧ d.getD q 0 + k = target
    · grind
    · exact ⟨i, hi, hk, fun q h1 h2 h3 => h ⟨q, h1, h2, h3⟩⟩

structure Accurate (d : Array Nat) (target : Nat) (last : Array (Option Nat)) : Prop where
  size : last.size = 14
  iff : ∀ k, 1 ≤ k → k < 14 → ∀ p, last.getD k none = some p ↔ IsLast d target k p

theorem Accurate.none_iff (h : Accurate d target last) (h1 : 1 ≤ k)
    (h2 : k < 14) : last.getD k none = none ↔ ∀ i < d.size, d.getD i 0 + k ≠ target := by
  refine ⟨fun hn i hi hk => ?_, fun hn => ?_⟩
  · obtain ⟨p, hp⟩ := exists_isLast hi hk
    rw [(h.iff k h1 h2 p).2 hp] at hn
    exact nomatch hn
  · cases hk : last.getD k none with
    | none => rfl
    | some p =>
      obtain ⟨hp, hd, -⟩ := (h.iff k h1 h2 p).1 hk
      exact absurd hd (hn p hp)

theorem lastPlaces_spec (d : Array Nat) (htarget : target ≤ 12) (hn : n ≤ d.size)
    (hmono : ∀ i j, i ≤ j → j < d.size → d.getD i 0 ≤ d.getD j 0) (hlow : ∀ i < n, d.getD i 0 < target) (hhigh : ∀ i, n ≤ i → i < d.size → d.getD i 0 = target) :
    Accurate d target (lastPlaces d target n) := by
  -- places are looked at from the last; the second entry is the depth met last
  have hfold := foldl_range (fun i (acc : Array (Option Nat) × Nat) => acc.1.size = 14 ∧
      (∀ q, n ≤ q + i → q < n → acc.2 ≤ d.getD q 0) ∧ (acc.2 = target ∨ ∃ q, n ≤ q + i ∧ q < n ∧ d.getD q 0 = acc.2) ∧
      ∀ k, 1 ≤ k → k < 14 → ∀ p, acc.1.getD k none = some p ↔ n ≤ p + i ∧ IsLast d target k p)
    (fun (acc : Array (Option Nat) × Nat) i =>
      let p := n - 1 - i
      let b := d.getD p 0
      if acc.2 ≤ b then acc else (acc.1.setIfInBounds (target - b) (some p), b))
    (Array.replicate 14 none, target) n ⟨by simp, fun q h1 h2 => by omega, .inl rfl, fun k h1 h2 p => ?_⟩ ?_
  · refine ⟨hfold.1, fun k h1 h2 p => ?_⟩
    exact (hfold.2.2.2 k h1 h2 p).trans ⟨fun h => h.2, fun h => ⟨by omega, h⟩⟩
  · have hnone : (Array.replicate 14 (none : Option Nat)).getD k none = none := by simp [Array.getD_eq_getD_getElem?, h2]
    rw [hnone]
    refine ⟨nofun, ?_⟩
    rintro ⟨h3, hp, hd, -⟩
    have := hhigh p (by omega) hp
    omega
  · rintro i ⟨last, b⟩ hi ⟨h1, h2, h3, h4⟩
    dsimp only at h1 h2 h3 h4 ⊢
    have hp := hlow (n - 1 - i) (by omega)
    have hin : ∀ q, n ≤ q + (i + 1) → q < n → q = n - 1 - i ∨ n ≤ q + i := fun q _ _ => by omega
    by_cases hc : b ≤ d.getD (n - 1 - i) 0
    · rw [if_pos hc]
      refine ⟨h1, fun q hq hq' => ?_, ?_, fun k hk hk' p => ?_⟩
      · grind
      · rcases h3 with h3 | ⟨q, hq, h3⟩
        · exact .inl h3
        · exact .inr ⟨q, by omega, h3⟩
      · rw [h4 k hk hk' p]
        refine ⟨fun h => ⟨by omega, h.2⟩, fun h => ⟨?_, h.2⟩⟩
        -- the depth here has been met at a later place
        rcases lt_or_ge p (n - i) with hlt | hge
        · obtain rfl : p = n - 1 - i := by omega
          obtain ⟨h5, h6, h7⟩ := h.2
          rcases h3 with rfl | ⟨q, hq1, hq2, hq3⟩
          · omega
          · have := hmono (n - 1 - i) q (by omega) (by omega)
            exact absurd (by omega) (h7 q (by omega) (by omega))
        · omega
    · rw [if_neg hc]
      refine ⟨by simpa using h1, fun q hq hq' => ?_, .inr ⟨n - 1 - i, by omega, by omega, rfl⟩, fun k hk hk' p => ?_⟩
      · grind
      · have hlast : IsLast d target (target - d.getD (n - 1 - i) 0) (n - 1 - i) := by
          refine ⟨by omega, by omega, fun q hq hq' heq => ?_⟩
          rcases lt_or_ge q n with hqn | hqn
          · have := h2 q (by omega) hqn
            omega
          · grind
        by_cases hkp : k = target - d.getD (n - 1 - i) 0
        · rw [← hkp] at hlast
          rw [← hkp, getD_set_self _ _ _ (by omega)]
          refine ⟨fun h => ?_, fun h => ?_⟩
          · grind
          · rw [hlast.unique h.2]
        · rw [getD_set_ne _ _ _ hkp, h4 k hk hk' p]
          refine ⟨fun h => ⟨by omega, h.2⟩, fun h => ⟨?_, h.2⟩⟩
          rcases lt_or_ge p (n - i) with hlt | hge
          · obtain rfl : p = n - 1 - i := by omega
            have := h.2.2.1
            omega
          · omega

/-! ### Choosing whom to lengthen -/

theorem chooseDistance_spec (r : Ranking) (last : Array (Option Nat)) (k : Nat) :
    chooseDistance r last k = 1 ∨ 1 < chooseDistance r last k ∧ chooseDistance r last k ≤ k ∧
      last.getD (chooseDistance r last k) none ≠ none := by
  fun_induction chooseDistance r last k with
  | case1 => exact .inl rfl
  | case2 => exact .inl rfl
  | case3 k hnone ih =>
    grind
  | case4 k high hnone hsome => simp_all
  | case5 k high low hlow hsome hc => simp_all
  | case6 k high low hlow hsome hc ih =>
    grind

theorem nextDistance_spec (last : Array (Option Nat)) (k fuel : Nat) (hj : k ≤ j) (hj' : j ≤ 12) (hsome : last.getD j none ≠ none)
    (hfuel : j ≤ k + fuel) : k ≤ nextDistance last k fuel ∧ nextDistance last k fuel ≤ j ∧
      last.getD (nextDistance last k fuel) none ≠ none ∧ ∀ i, k ≤ i → i < nextDistance last k fuel → last.getD i none = none := by
  induction fuel generalizing k with
  | zero =>
    obtain rfl : j = k := by omega
    exact ⟨le_rfl, le_rfl, hsome, fun i h1 h2 => absurd h2 (not_lt.2 h1)⟩
  | succ fuel ih =>
    rw [nextDistance]
    by_cases hc : k ≤ 12 ∧ last.getD k none = none
    · rw [if_pos hc]
      have hne : k ≠ j := by
        rintro rfl
        exact hsome hc.2
      obtain ⟨h1, h2, h3, h4⟩ := ih (k + 1) (by omega) (by omega)
      refine ⟨by omega, h2, h3, fun i hi hi' => ?_⟩
      rcases eq_or_lt_of_le hi with rfl | hi
      · exact hc.2
      · exact h4 i hi hi'
    · rw [if_neg hc]
      grind

/-! ### Paying -/

/-- Rising depths of `u` symbols that take too much of the code space, by the debt. -/
structure Owing (u target : Nat) (d : Array Nat) (debt : Int) : Prop where
  size : d.size = u
  pos : ∀ i < u, 0 < d.getD i 0
  mono : ∀ i j, i ≤ j → j < u → d.getD i 0 ≤ d.getD j 0
  balance : ((∑ i ∈ range u, 2 ^ (target - d.getD i 0) : Nat) : Int) = (2 ^ target : Nat) + debt

/-- One depth changes and stays between its neighbours. -/
theorem Owing.set (h : Owing u target d debt) (hp : p < u) (hb : 0 < b)
    (hbefore : ∀ i < p, d.getD i 0 ≤ b) (hafter : ∀ i, p < i → i < u → b ≤ d.getD i 0)
    (hdebt : debt' + (2 ^ (target - d.getD p 0) : Nat) = debt + (2 ^ (target - b) : Nat)) :
    Owing u target (d.setIfInBounds p b) debt' := by
  have hself : (d.setIfInBounds p b).getD p 0 = b := getD_set_self _ _ _ (by rw [h.size]; exact hp)
  have hne : ∀ i, i ≠ p → (d.setIfInBounds p b).getD i 0 = d.getD i 0 := fun i hi => getD_set_ne _ _ _ hi
  refine ⟨by rw [Array.size_setIfInBounds, h.size], fun i hi => ?_, fun i j h1 h2 => ?_, ?_⟩
  · by_cases hi' : i = p
    · rw [hi', hself]
      exact hb
    · rw [hne i hi']
      exact h.pos i hi
  · by_cases hi : i = p
    · grind
    · rw [hne i hi]
      by_cases hj : j = p
      · grind
      · rw [hne j hj]
        exact h.mono i j h1 h2
  · have hsum := sum_range_set (f := fun i => 2 ^ (target - d.getD i 0))
      (g := fun i => 2 ^ (target - (d.setIfInBounds p b).getD i 0)) hp fun t _ ht => by simp only [hne t ht]
    simp only [hself] at hsum
    have := h.balance
    omega

/-- While the debt is paid: `o` are the depths before the cut, and from place `n` on all stand at the target. -/
structure Paying (o : Array Nat) (target n : Nat) (d : Array Nat) (last : Array (Option Nat)) (debt : Int) : Prop
    extends Owing o.size target d debt where
  tail : ∀ i, n ≤ i → i < o.size → d.getD i 0 = target
  kept : ∀ i < o.size, d.getD i 0 < target → o.getD i 0 ≤ d.getD i 0
  accurate : Accurate d target last

def atTarget (d : Array Nat) (target : Nat) : Nat := ∑ i ∈ range d.size, if d.getD i 0 = target then 1 else 0

namespace Paying

variable {o d : Array Nat} {target n : Nat} {last : Array (Option Nat)} {debt : Int}

theorem le (h : Paying o target n d last debt) (hn : n < o.size) (hi : i < o.size) : d.getD i 0 ≤ target := by
  rw [← h.tail (o.size - 1) (by omega) (by omega)]
  exact h.mono i (o.size - 1) (by omega) (by omega)

/-- As long as there is a debt, some symbol stands before the target. -/
theorem exists_some (h : Paying o target n d last debt) (hn : n < o.size) (htarget : target ≤ 12) (hsize : o.size ≤ 2 ^ target)
    (hdebt : 0 < debt) : ∃ k, 1 ≤ k ∧ k ≤ 12 ∧ last.getD k none ≠ none := by
  by_contra hall
  have hone : ∀ i ∈ range o.size, 2 ^ (target - d.getD i 0) = 1 := fun i hi => by
    have hi := mem_range.1 hi
    have hle := h.le hn hi
    rcases eq_or_lt_of_le hle with heq | hlt
    · rw [heq, Nat.sub_self, pow_zero]
    · refine absurd ⟨target - d.getD i 0, by omega, by omega, fun hnone => ?_⟩ hall
      exact (h.accurate.none_iff (by omega) (by omega)).1 hnone i (by rw [h.size]; exact hi) (by omega)
  have hb := h.balance
  rw [sum_congr rfl hone, ← card_eq_sum_ones, card_range] at hb
  omega

end Paying

/-- The last places after the last symbol at distance `k` has moved one step towards the target. -/
def moveOn (d : Array Nat) (target k p : Nat) (last : Array (Option Nat)) : Array (Option Nat) :=
  let last := if last.getD (k - 1) none = none then last.setIfInBounds (k - 1) (some p) else last
  if p = 0 then last.setIfInBounds k none
  else if d.getD (p - 1) 0 = target - k then last.setIfInBounds k (some (p - 1))
  else last.setIfInBounds k none

theorem Accurate.step (h : Accurate d target last)
    (hmono : ∀ i j, i ≤ j → j < d.size → d.getD i 0 ≤ d.getD j 0) (hk : 1 ≤ k) (hk' : k < 14) (hp : IsLast d target k p) :
    let d' := d.setIfInBounds p (d.getD p 0 + 1)
    Accurate d' target (moveOn d' target k p last) := by
  intro d'
  obtain ⟨hlt, hdist, hlater⟩ := hp
  have hself : d'.getD p 0 = d.getD p 0 + 1 := getD_set_self _ _ _ hlt
  have hne : ∀ i, i ≠ p → d'.getD i 0 = d.getD i 0 := fun i hi => getD_set_ne _ _ _ hi
  have hsize : d'.size = d.size := Array.size_setIfInBounds
  unfold moveOn
  generalize hlast : (if last.getD (k - 1) none = none then last.setIfInBounds (k - 1) (some p) else last) = last'
  have hlsize : last'.size = 14 := by
    rw [← hlast]
    split
    · rw [Array.size_setIfInBounds, h.size]
    · exact h.size
  -- the new last place at distance `k`, if there is one
  obtain ⟨x, hx, heq⟩ : ∃ x : Option Nat, (∀ q, x = some q ↔ IsLast d' target k q) ∧
      (if p = 0 then last'.setIfInBounds k none
        else if d'.getD (p - 1) 0 = target - k then last'.setIfInBounds k (some (p - 1)) else last'.setIfInBounds k none) =
        last'.setIfInBounds k x := by
    have hbefore : ∀ q, IsLast d' target k q → p ≠ 0 ∧ d'.getD (p - 1) 0 = target - k ∧ q = p - 1 := by
      rintro q ⟨h1, h2, h3⟩
      have hqp : q ≠ p := by
        rintro rfl
        omega
      rw [hne q hqp] at h2
      have hq : q < p := by
        by_contra hge
        exact hlater q (by omega) (by omega) h2
      have h4 := hmono q (p - 1) (by omega) (by omega)
      have h5 := hmono (p - 1) p (by omega) hlt
      have h6 : d'.getD (p - 1) 0 = d.getD (p - 1) 0 := hne _ (by omega)
      refine ⟨by omega, by omega, ?_⟩
      by_contra hq'
      exact h3 (p - 1) (by omega) (by omega) (by omega)
    by_cases hp0 : p = 0
    · refine ⟨none, fun q => ⟨nofun, fun hq => absurd hp0 (hbefore q hq).1⟩, by rw [if_pos hp0]⟩
    · rw [if_neg hp0]
      by_cases hd : d'.getD (p - 1) 0 = target - k
      · refine ⟨some (p - 1), fun q => ⟨fun hq => ?_, fun hq => by rw [(hbefore q hq).2.2]⟩, by rw [if_pos hd]⟩
        obtain rfl : p - 1 = q := Option.some.inj hq
        refine ⟨by omega, by omega, fun q h1 h2 => ?_⟩
        rcases lt_or_eq_of_le (show p ≤ q by omega) with hpq | rfl
        · rw [hne q (by omega)]
          exact hlater q hpq (by omega)
        · omega
      · exact ⟨none, fun q => ⟨nofun, fun hq => absurd (hbefore q hq).2.1 hd⟩, by rw [if_neg hd]⟩
  rw [heq]
  refine ⟨by rw [Array.size_setIfInBounds, hlsize], fun j h1 h2 q => ?_⟩
  by_cases hjk : j = k
  · rw [hjk, getD_set_self _ _ _ (by omega)]
    exact hx q
  rw [getD_set_ne _ _ _ hjk]
  by_cases hj : j = k - 1
  · subst hj
    rw [← hlast]
    cases hold : last.getD (k - 1) none with
    | none =>
      have hnobody := (h.none_iff h1 h2).1 hold
      rw [if_pos rfl, getD_set_self _ _ _ (by rw [h.size]; omega)]
      have hnow : IsLast d' target (k - 1) p :=
        ⟨by omega, by omega, fun q hq hq' => by rw [hne q (by omega)]; exact hnobody q (by omega)⟩
      exact ⟨fun hq => by grind, fun hq => by rw [hnow.unique hq]⟩
    | some q0 =>
      rw [if_neg nofun, hold]
      obtain ⟨h3, h4, h5⟩ := (h.iff (k - 1) h1 h2 q0).1 hold
      have hpq : p < q0 := by
        by_contra hge
        have := hmono q0 p (by omega) hlt
        omega
      have hnow : IsLast d' target (k - 1) q0 :=
        ⟨by omega, by rw [hne q0 (by omega)]; exact h4, fun q hq hq' => by rw [hne q (by omega)]; exact h5 q hq (by omega)⟩
      exact ⟨fun hq => by grind, fun hq => by rw [hnow.unique hq]⟩
  · have hsame : last'.getD j none = last.getD j none := by
      rw [← hlast]
      split
      · exact getD_set_ne _ _ _ hj
      · rfl
    rw [hsame, h.iff j h1 h2 q]
    have hiff : ∀ i, d'.getD i 0 + j = target ↔ d.getD i 0 + j = target := fun i => by
      by_cases hi : i = p
      · subst hi
        omega
      · rw [hne i hi]
    exact ⟨fun ⟨h3, h4, h5⟩ => ⟨by omega, (hiff q).2 h4, fun i hi hi' h6 => h5 i hi (by omega) ((hiff i).1 h6)⟩,
      fun ⟨h3, h4, h5⟩ => ⟨by omega, (hiff q).1 h4, fun i hi hi' h6 => h5 i hi (by omega) ((hiff i).2 h6)⟩⟩

namespace Paying

variable {o d : Array Nat} {target n : Nat} {last : Array (Option Nat)} {debt : Int}

section

variable (h : Paying o target n d last debt)

include h

theorem step (hk : 1 ≤ k) (hk' : k < 14)
    (hp : last.getD k none = some p) :
    let d' := d.setIfInBounds p (d.getD p 0 + 1)
    Paying o target n d' (moveOn d' target k p last) (debt - (2 ^ (k - 1) : Nat)) ∧ atTarget d target ≤ atTarget d' target := by
  intro d'
  have hlast := (h.accurate.iff k hk hk' p).1 hp
  have hacc := h.accurate.step (fun i j h1 h2 => h.mono i j h1 (by rw [← h.size]; exact h2)) hk hk' hlast
  obtain ⟨hlt, hdist, hlater⟩ := hlast
  rw [h.size] at hlt hlater
  have hself : d'.getD p 0 = d.getD p 0 + 1 := getD_set_self _ _ _ (by rw [h.size]; exact hlt)
  have hne : ∀ i, i ≠ p → d'.getD i 0 = d.getD i 0 := fun i hi => getD_set_ne _ _ _ hi
  have howing : Owing o.size target d' (debt - (2 ^ (k - 1) : Nat)) := by
    refine h.toOwing.set hlt (Nat.succ_pos _) (fun i hi => Nat.le_succ_of_le (h.mono i p (by omega) hlt)) (fun i h1 h2 => ?_) ?_
    · exact lt_of_le_of_ne (h.mono p i (by omega) h2) fun heq => hlater i h1 h2 (by omega)
    · have hpow : 2 ^ (target - d.getD p 0) = 2 * 2 ^ (k - 1) := by
        rw [← pow_succ']
        congr 1
        omega
      grind
  refine ⟨⟨howing, fun i h1 h2 => ?_, fun i hi hlt' => ?_, hacc⟩, ?_⟩
  · have h3 := h.tail i h1 h2
    grind
  · by_cases hi' : i = p
    · subst hi'
      rw [hself] at hlt' ⊢
      exact Nat.le_succ_of_le (h.kept i hi (by omega))
    · rw [hne i hi'] at hlt' ⊢
      exact h.kept i hi hlt'
  · unfold atTarget
    rw [show d'.size = d.size from Array.size_setIfInBounds]
    refine sum_le_sum fun i _ => ?_
    grind

/-- The symbols before the target do not fill the code space, as they did not before the cut. -/
theorem space_lt (hn : n < o.size) (ho : Depths o) (hcut : target < o.getD (o.size - 1) 0) :
    ∑ i ∈ range o.size, (if d.getD i 0 = target then 0 else 2 ^ (target - d.getD i 0)) < 2 ^ target := by
  have hfull := ho.kraft (o.getD (o.size - 1) 0) le_rfl
  generalize o.getD (o.size - 1) 0 = largest at hfull hcut
  have hterm : ∀ i < o.size, 2 ^ (largest - target) * (if d.getD i 0 = target then 0 else 2 ^ (target - d.getD i 0)) ≤
      2 ^ (largest - o.getD i 0) := fun i hi => by
    by_cases hat : d.getD i 0 = target
    · simp_all
    · rw [if_neg hat]
      have hlt : d.getD i 0 < target := lt_of_le_of_ne (h.le hn hi) hat
      have hkept := h.kept i hi hlt
      rw [← pow_add]
      exact Nat.pow_le_pow_right (by omega) (by omega)
  have hlt : 2 ^ (largest - target) * ∑ i ∈ range o.size, (if d.getD i 0 = target then 0 else 2 ^ (target - d.getD i 0)) < 2 ^ largest := by
    rw [← hfull, mul_sum]
    refine sum_lt_sum (fun i hi => hterm i (mem_range.1 hi)) ⟨o.size - 1, mem_range.2 (by omega), ?_⟩
    rw [if_pos (h.tail _ (by omega) (by omega)), mul_zero]
    exact Nat.two_pow_pos _
  refine Nat.lt_of_mul_lt_mul_left (a := 2 ^ (largest - target)) (lt_of_lt_of_le hlt (le_of_eq ?_))
  grind [pow_add, Nat.sub_add_cancel]

theorem atTarget_pos (hn : n < o.size) : 0 < atTarget d target := by
  have := single_le_sum (f := fun i => if d.getD i 0 = target then 1 else 0) (fun _ _ => Nat.zero_le _)
    (mem_range.2 (show o.size - 1 < d.size by rw [h.size]; omega))
  rw [if_pos (h.tail _ (by omega) (by omega))] at this
  exact this

/-- If nobody stands nearer than `k`, the symbols at the target can give change. -/
theorem change (hn : n < o.size) (ho : Depths o) (hcut : target < o.getD (o.size - 1) 0)
    (hk : k ≤ target) (hnear : ∀ i < o.size, d.getD i 0 + k ≤ target ∨ d.getD i 0 = target) :
    ((2 ^ k : Nat) : Int) + debt ≤ atTarget d target := by
  have hlt := h.space_lt hn ho hcut
  have hsplit : ∑ i ∈ range o.size, 2 ^ (target - d.getD i 0) =
      atTarget d target + ∑ i ∈ range o.size, (if d.getD i 0 = target then 0 else 2 ^ (target - d.getD i 0)) := by
    unfold atTarget
    rw [h.size, ← sum_add_distrib]
    refine sum_congr rfl fun i _ => ?_
    by_cases hi : d.getD i 0 = target
    · simp_all
    · rw [if_neg hi, if_neg hi, zero_add]
  have hdvd : 2 ^ k ∣ ∑ i ∈ range o.size, (if d.getD i 0 = target then 0 else 2 ^ (target - d.getD i 0)) := by
    refine dvd_sum fun i hi => ?_
    split
    · exact Nat.dvd_zero _
    · grind [Nat.pow_dvd_pow]
  obtain ⟨a, ha⟩ := hdvd
  obtain ⟨b, hb⟩ : 2 ^ k ∣ 2 ^ target := Nat.pow_dvd_pow 2 hk
  have hab : a + 1 ≤ b := by
    rw [ha, hb] at hlt
    exact Nat.lt_of_mul_lt_mul_left hlt
  have hle : 2 ^ k * a + 2 ^ k ≤ 2 ^ target := by
    rw [hb, ← Nat.mul_succ]
    exact Nat.mul_le_mul_left _ hab
  have := h.balance
  omega

end

/-- Paying ends, and what was paid too much can be given back. -/
theorem payDebt (r : Ranking) (h : Paying o target n d last debt) (hn : n < o.size) (htarget : target ≤ 12) (hsize : o.size ≤ 2 ^ target)
    (ho : Depths o) (hcut : target < o.getD (o.size - 1) 0) (hstart : -debt < atTarget d target) (fuel : Nat) (hfuel : debt ≤ fuel) :
    ∃ d' last' debt', Huffman.payDebt r target d last debt fuel = (d', last', debt') ∧ Paying o target n d' last' debt' ∧ debt' ≤ 0 ∧
      -debt' < atTarget d' target := by
  induction fuel generalizing d last debt with
  | zero => exact ⟨d, last, debt, rfl, h, by simpa using hfuel, hstart⟩
  | succ fuel ih =>
    rw [Huffman.payDebt]
    by_cases hdebt : debt ≤ 0
    · simp_all
    · rw [if_neg hdebt]
      obtain ⟨j, hj1, hj2, hj3⟩ := h.exists_some hn htarget hsize (by omega)
      -- the distance found pays at most the debt, or nobody stands nearer
      obtain ⟨k, hkdef, hk1, hk2, hk3, hk4⟩ : ∃ k, nextDistance last (chooseDistance r last (highBit debt.toNat + 1)) 14 = k ∧ 1 ≤ k ∧
          k ≤ 12 ∧ last.getD k none ≠ none ∧ (k ≤ highBit debt.toNat + 1 ∨ ∀ i, 1 ≤ i → i < k → last.getD i none = none) := by
        refine ⟨_, rfl, ?_⟩
        rcases chooseDistance_spec r last (highBit debt.toNat + 1) with hc | ⟨hc1, hc2, hc3⟩
        · rw [hc]
          obtain ⟨h1, h2, h3, h4⟩ := nextDistance_spec last 1 14 hj1 hj2 hj3 (by omega)
          exact ⟨h1, by omega, h3, .inr h4⟩
        · generalize chooseDistance r last (highBit debt.toNat + 1) = c at hc1 hc2 hc3 ⊢
          have hc12 : c ≤ 12 := by
            rcases lt_or_ge c 14 with hlt | hge
            · obtain ⟨p, hp⟩ := Option.ne_none_iff_exists'.1 hc3
              obtain ⟨-, hd, -⟩ := (h.accurate.iff c (by omega) hlt p).1 hp
              omega
            · refine absurd ?_ hc3
              rw [Array.getD_eq_getD_getElem?, Array.getElem?_eq_none (by rw [h.accurate.size]; exact hge)]
              rfl
          obtain ⟨h1, h2, h3, -⟩ := nextDistance_spec last c 14 (le_refl c) hc12 hc3 (by omega)
          grind
      obtain ⟨p, hp⟩ := Option.ne_none_iff_exists'.1 hk3
      obtain ⟨hplt, hpd, -⟩ := (h.accurate.iff k hk1 (by omega) p).1 hp
      obtain ⟨hpay, hat⟩ := h.step hk1 (by omega) hp
      dsimp only
      rw [hkdef, hp, Option.getD_some]
      refine ih hpay ?_ ?_
      · rcases hk4 with hle | hnone
        · have h1 : 2 ^ (k - 1) ≤ 2 ^ highBit debt.toNat := Nat.pow_le_pow_right (by omega) (by omega)
          have h2 : 2 ^ highBit debt.toNat ≤ debt.toNat := Nat.log2_self_le (by omega)
          have h3 := h.atTarget_pos hn
          omega
        · have hchange := h.change hn ho hcut (k := k) (by omega) fun i hi => by
            have hle := h.le hn hi
            by_contra hnear
            have hnone := hnone (target - d.getD i 0) (by omega) (by omega)
            exact (h.accurate.none_iff (by omega) (by omega)).1 hnone i (by rw [h.size]; exact hi) (by omega)
          have : 2 ^ (k - 1) ≤ 2 ^ k := Nat.pow_le_pow_right (by omega) (by omega)
          omega
      · have := Nat.two_pow_pos (k - 1)
        omega

end Paying

/-! ### Giving change -/

/-- The state while change is given. -/
structure Refunding (u target : Nat) (d : Array Nat) (debt : Int) : Prop extends Owing u target d debt where
  le : ∀ i < u, d.getD i 0 ≤ target
  enough : -debt < atTarget d target

namespace Refunding

variable {u target z : Nat} {d : Array Nat} {debt : Int}

theorem step (h : Refunding u target d debt) (htarget : 2 ≤ target) (hz : z < u) (hat : d.getD z 0 = target)
    (hbefore : ∀ i < z, d.getD i 0 < target) :
    Refunding u target (d.setIfInBounds z (d.getD z 0 - 1)) (debt + 1) ∧
      IsLast (d.setIfInBounds z (d.getD z 0 - 1)) target 1 z := by
  have hafter : ∀ i, z ≤ i → i < u → d.getD i 0 = target := fun i h1 h2 =>
    le_antisymm (h.le i h2) (by rw [← hat]; exact h.mono z i h1 h2)
  have howing : Owing u target (d.setIfInBounds z (d.getD z 0 - 1)) (debt + 1) := by
    refine h.toOwing.set hz (by omega) (fun i hi => by have := hbefore i hi; omega) (fun i h1 h2 => ?_) ?_
    · grind
    · grind
  have hself : (d.setIfInBounds z (d.getD z 0 - 1)).getD z 0 = d.getD z 0 - 1 := getD_set_self _ _ _ (by rw [h.size]; exact hz)
  have hne : ∀ i, i ≠ z → (d.setIfInBounds z (d.getD z 0 - 1)).getD i 0 = d.getD i 0 := fun i hi => getD_set_ne _ _ _ hi
  generalize d.setIfInBounds z (d.getD z 0 - 1) = d' at howing hself hne
  have hsize := howing.size
  refine ⟨⟨howing, fun i hi => ?_, ?_⟩, by omega, by omega, fun q h1 h2 => ?_⟩
  · grind
  · have hsum := sum_range_set (f := fun i => if d.getD i 0 = target then 1 else 0) (g := fun i => if d'.getD i 0 = target then 1 else 0)
      hz fun t _ ht => by simp only [hne t ht]
    simp only [hself, hat, if_true] at hsum
    have := h.enough
    unfold atTarget at this ⊢
    rw [h.size] at this
    rw [hsize]
    omega
  grind

theorem last_eq (h : Refunding u target d debt) (hdebt : debt ≤ 0) : 0 < u ∧ d.getD (u - 1) 0 = target := by
  have henough := h.enough
  obtain ⟨i, hi, hne⟩ : ∃ i ∈ range d.size, (if d.getD i 0 = target then 1 else 0) ≠ 0 :=
    exists_ne_zero_of_sum_ne_zero (show atTarget d target ≠ 0 by omega)
  have hi := mem_range.1 hi
  rw [h.size] at hi
  by_cases hat : d.getD i 0 = target
  · exact ⟨by omega, le_antisymm (h.le _ (by omega)) (by rw [← hat]; exact h.mono i (u - 1) (by omega) (by omega))⟩
  simp_all

theorem refund_succ (target : Nat) (d : Array Nat) (one : Option Nat) (n : Nat) (debt : Int) (fuel : Nat) :
    Huffman.refund target d one n debt (fuel + 1) =
      if 0 ≤ debt then d
      else
        let z := match one with
          | none => beforeRun d target n
          | some p => p + 1
        Huffman.refund target (d.setIfInBounds z (d.getD z 0 - 1)) (some z) (if one.isNone then z else n) (debt + 1) fuel := by
  cases one <;> rfl

theorem refund (h : Refunding u target d debt) (htarget : 2 ≤ target) (hn : n ≤ u)
    (hsome : ∀ p, one = some p → IsLast d target 1 p)
    (hnone : one = none → ∀ i, n ≤ i → i < u → d.getD i 0 = target) (hdebt : debt ≤ 0) (fuel : Nat) (hfuel : -debt ≤ fuel) :
    Refunding u target (Huffman.refund target d one n debt fuel) 0 := by
  induction fuel generalizing d one n debt with
  | zero =>
    obtain rfl : debt = 0 := by omega
    exact h
  | succ fuel ih =>
    rw [refund_succ]
    by_cases hd : 0 ≤ debt
    · grind
    · obtain ⟨hu, hlast⟩ := h.last_eq hdebt
      cases one with
      | none =>
        obtain ⟨h1, h2, h3⟩ := beforeRun_spec d target n
        generalize beforeRun d target n = z at h1 h2 h3
        have hafter : ∀ i, z ≤ i → i < u → d.getD i 0 = target := fun i hi hi' => by
          grind
        have hz : z < u := by
          rcases lt_or_ge z u with hz | hz
          · exact hz
          · grind
        have hbefore : ∀ i < z, d.getD i 0 < target := fun i hi => by
          have h4 := h.mono i (z - 1) (by omega) (by omega)
          have h5 := h.le (z - 1) (by omega)
          grind
        obtain ⟨h4, h5⟩ := h.step htarget hz (hafter z (le_refl z) hz) hbefore
        grind
      | some p =>
        obtain ⟨h1, h2, h3⟩ := hsome p rfl
        rw [h.size] at h1 h3
        have hz : p + 1 < u := by
          rcases lt_or_ge (p + 1) u with hz | hz
          · exact hz
          · grind
        have hat : d.getD (p + 1) 0 = target := by
          have h4 := h.mono p (p + 1) (by omega) hz
          have h5 := h.le (p + 1) hz
          have h6 := h3 (p + 1) (by omega) hz
          omega
        have hbefore : ∀ i < p + 1, d.getD i 0 < target := fun i hi => by
          have := h.mono i p (by omega) h1
          omega
        obtain ⟨h4, h5⟩ := h.step htarget hz hat hbefore
        grind

end Refunding

/-! ### Limited depths -/

/-- Depths up to `log` that fill the code space, and one of them is `log`. -/
structure Fitted (d : Array Nat) (log : Nat) : Prop where
  pos : ∀ i < d.size, 0 < d.getD i 0
  le : ∀ i < d.size, d.getD i 0 ≤ log
  kraft : ∑ i ∈ range d.size, 2 ^ (log - d.getD i 0) = 2 ^ log
  longest : ∃ i < d.size, d.getD i 0 = log

theorem limitDepth_of_le (r : Ranking) (h : o.getD (o.size - 1) 0 ≤ target) :
    limitDepth r o target = (o, o.getD (o.size - 1) 0) := by
  rw [limitDepth]
  exact if_pos h

theorem limitDepth_of_lt (r : Ranking) (h : target < o.getD (o.size - 1) 0) :
    ∃ fuel fuel', 256 ≤ fuel ∧ 256 ≤ fuel' ∧ limitDepth r o target =
      let (d, debt, n) := shorten o (o.getD (o.size - 1) 0) target 0 o.size
      let n := beforeRun d target n
      let debt := debt.fdiv (2 ^ (o.getD (o.size - 1) 0 - target) : Nat)
      let (d, last, debt) := payDebt r target d (lastPlaces d target n) debt fuel
      (refund target d (last.getD 1 none) n debt fuel', target) := by
  refine ⟨2 ^ 12 + 256, 512, by omega, by omega, ?_⟩
  rw [limitDepth]
  exact if_neg (not_le.2 h)

/-- After the cut there is a debt of at most one for each symbol. -/
theorem paying_cut (ho : Depths o) (hlargest : o.getD (o.size - 1) 0 = largest)
    (htarget : 2 ≤ target) (htarget' : target ≤ 12) (hcut : target < largest) (hn : n ≤ o.size) (hlow : ∀ i < n, o.getD i 0 ≤ target)
    (h : CutFrom o largest target n d debt) (hm : m ≤ n) (hrun : ∀ i, m ≤ i → i < n → d.getD i 0 = target)
    (hstop : ∀ k, m = k + 1 → d.getD k 0 ≠ target) :
    Paying o target m d (lastPlaces d target m) (debt.fdiv (2 ^ (largest - target) : Nat)) ∧
      0 ≤ debt.fdiv (2 ^ (largest - target) : Nat) ∧ debt.fdiv (2 ^ (largest - target) : Nat) ≤ o.size := by
  have hle : ∀ i < o.size, d.getD i 0 ≤ target ∧ d.getD i 0 ≤ o.getD i 0 ∧ (d.getD i 0 < target → d.getD i 0 = o.getD i 0) ∧
      (d.getD i 0 = o.getD i 0 ∨ d.getD i 0 = target) := fun i hi => by
    rcases lt_or_ge i n with hin | hin
    · have h1 := h.low i hin
      have h2 := hlow i hin
      omega
    · have := h.high i hin hi
      omega
  have hmono : ∀ i j, i ≤ j → j < o.size → d.getD i 0 ≤ d.getD j 0 := fun i j h1 h2 => by
    have h3 := ho.mono i j h1 h2
    grind
  have hpos : ∀ i < o.size, 0 < d.getD i 0 := fun i hi => by
    have h3 := ho.pos i hi
    have h4 := hle i hi
    omega
  have htail : ∀ i, m ≤ i → i < o.size → d.getD i 0 = target := fun i h1 h2 => by
    rcases lt_or_ge i n with hin | hin
    · exact hrun i h1 hin
    · exact (h.high i hin h2).2
  have hbefore : ∀ i < m, d.getD i 0 < target := fun i hi => by
    have h3 := hmono i (m - 1) (by omega) (by omega)
    have h4 := hstop (m - 1) (by omega)
    have h5 := hle (m - 1) (by omega)
    omega
  -- in units of the target the debt is a whole number
  have hfull := ho.kraft largest (le_of_eq hlargest)
  have hdebt := h.balance
  have hterm : ∀ i < o.size, 2 ^ (largest - d.getD i 0) = 2 ^ (largest - target) * 2 ^ (target - d.getD i 0) := fun i hi => by
    rw [← pow_add]
    congr 1
    have := hle i hi
    omega
  rw [hfull, sum_congr rfl fun i hi => hterm i (mem_range.1 hi), ← mul_sum] at hdebt
  have hunit : 2 ^ largest = 2 ^ (largest - target) * 2 ^ target := by
    rw [← pow_add, Nat.sub_add_cancel (le_of_lt hcut)]
  have hmore : 2 ^ largest ≤ 2 ^ (largest - target) * ∑ i ∈ range o.size, 2 ^ (target - d.getD i 0) ∧
      2 ^ (largest - target) * ∑ i ∈ range o.size, 2 ^ (target - d.getD i 0) ≤ 2 ^ largest + 2 ^ (largest - target) * o.size := by
    have hcard : 2 ^ (largest - target) * o.size = ∑ _i ∈ range o.size, 2 ^ (largest - target) := by
      rw [sum_const, card_range, mul_comm]
      rfl
    rw [hcard, ← hfull, mul_sum, ← sum_add_distrib]
    refine ⟨sum_le_sum fun i hi => ?_, sum_le_sum fun i hi => ?_⟩
    · rw [← hterm i (mem_range.1 hi)]
      exact Nat.pow_le_pow_right (by omega) (by have := hle i (mem_range.1 hi); omega)
    · rw [← hterm i (mem_range.1 hi)]
      rcases (hle i (mem_range.1 hi)).2.2.2 with he | he
      · rw [he]
        exact Nat.le_add_right _ _
      · rw [he]
        exact Nat.le_add_left _ _
  rw [hunit, ← mul_add] at hmore
  have hpow := Nat.two_pow_pos (largest - target)
  have hge := Nat.le_of_mul_le_mul_left hmore.1 hpow
  have hmost := Nat.le_of_mul_le_mul_left hmore.2 hpow
  have hdiv : debt.fdiv (2 ^ (largest - target) : Nat) =
      ((∑ i ∈ range o.size, 2 ^ (target - d.getD i 0) : Nat) : Int) - (2 ^ target : Nat) := by
    have heq : debt = (2 ^ (largest - target) : Nat) *
        (((∑ i ∈ range o.size, 2 ^ (target - d.getD i 0) : Nat) : Int) - (2 ^ target : Nat)) := by
      rw [Int.mul_sub, ← Int.natCast_mul, ← Int.natCast_mul, ← hunit]
      omega
    rw [heq]
    exact Int.mul_fdiv_cancel_left _ (by omega)
  refine ⟨⟨⟨h.size, hpos, hmono, by omega⟩, htail, fun i hi hlt => ?_, ?_⟩, by omega, by omega⟩
  · rw [(hle i hi).2.2.1 hlt]
  · rw [← h.size] at hpos hmono htail hn
    exact lastPlaces_spec d htarget' (by omega) hmono hbefore htail

/-- Depths that rise along the ranking are limited to any target that leaves room for all symbols. -/
theorem limitDepth_spec (r : Ranking) (ho : Depths o) (h2 : 2 ≤ o.size) (hmost : o.size ≤ 256)
    (htarget : 2 ≤ target) (htarget' : target ≤ 12) (hroom : o.size ≤ 2 ^ target) :
    ∃ d log, limitDepth r o target = (d, log) ∧ d.size = o.size ∧ log ≤ target ∧ Fitted d log := by
  rcases lt_or_ge target (o.getD (o.size - 1) 0) with hcut | hle
  · obtain ⟨fuel, fuel', hf, hf', heq⟩ := limitDepth_of_lt r hcut
    obtain ⟨d, debt, n, hshort, hn, hlow, hfrom⟩ := shorten_spec (o.getD (o.size - 1) 0) target ho.mono o.size o 0 le_rfl
      ⟨rfl, fun _ _ => rfl, fun i h1 h2 => absurd h2 (not_lt.2 h1), by omega⟩
    rw [hshort] at heq
    dsimp only at heq
    obtain ⟨hb1, hb2, hb3⟩ := beforeRun_spec d target n
    generalize beforeRun d target n = m at heq hb1 hb2 hb3
    obtain ⟨hpay, hge, hle⟩ := paying_cut ho rfl htarget htarget' hcut hn hlow hfrom hb1 hb2 hb3
    have hm : m < o.size := by
      rcases lt_or_ge m o.size with hlt | hge
      · exact hlt
      · grind
    have hat := hpay.atTarget_pos hm
    obtain ⟨d1, last1, debt1, hpaid, hpay1, hneg, henough⟩ := hpay.payDebt r hm htarget' hroom ho hcut (by omega) fuel (by omega)
    rw [hpaid] at heq
    dsimp only at heq
    have hfew : atTarget d1 target ≤ 256 := by
      have : atTarget d1 target ≤ ∑ _i ∈ range d1.size, 1 := sum_le_sum fun i _ => by
        by_cases hi : d1.getD i 0 = target
        · rw [if_pos hi]
        grind
      rw [← card_eq_sum_ones, card_range, hpay1.size] at this
      omega
    have href : Refunding o.size target d1 debt1 :=
      ⟨hpay1.toOwing, fun i hi => hpay1.le hm hi, henough⟩
    have hdone := href.refund htarget (le_of_lt hm) (fun p hp => (hpay1.accurate.iff 1 (le_refl 1) (by omega) p).1 hp)
      (fun _ => hpay1.tail) hneg fuel' (by omega)
    refine ⟨_, _, heq, hdone.size, le_rfl, ?_, ?_, ?_, ?_⟩
    · rw [hdone.size]
      exact hdone.pos
    · rw [hdone.size]
      exact hdone.le
    · have := hdone.balance
      rw [hdone.size]
      omega
    · rw [hdone.size]
      exact ⟨o.size - 1, by omega, (hdone.last_eq (Int.le_refl 0)).2⟩
  · exact ⟨_, _, limitDepth_of_le r hle, rfl, hle, ho.pos, fun i hi => ho.mono i _ (by omega) (by omega), ho.kraft _ le_rfl,
      o.size - 1, by omega, rfl⟩

end ZstCodec.Huffman
