import Mathlib.Algebra.BigOperators.Ring.Finset
import Mathlib.Algebra.Order.BigOperators.Group.Finset
import ZstCodec.Proofs.Fse.Table

/-! # Scaling a histogram

Scaling gives every symbol that occurs at least one state, and all states away. Plain rounding leaves a rest, which the
most frequent symbol takes or makes up for. Where that would cost it too much, rare symbols are served first: there are
at least as many states as symbols, so enough is left for the others. -/

namespace ZstCodec.Fse

open Finset

variable {norm' : Array Int} {rare : Bool} {d : Distribution} {v : Int} {s states : Nat} {α : Type}

theorem foldl_range (P : Nat → α → Prop) (f : α → Nat → α) (a : α) (n : Nat) (h0 : P 0 a)
    (hstep : ∀ k a, k < n → P k a → P (k + 1) (f a k)) : P n ((List.range n).foldl f a) := by
  induction n with
  | zero => exact h0
  | succ n ih =>
    grind [List.range_succ]

theorem sum_range_eq (f : Nat → Nat) (n : Nat) : ((List.range n).map f).sum = ∑ s ∈ range n, f s := by
  induction n with
  | zero => rfl
  | succ n ih => simp_all [List.range_succ, sum_range_succ]

theorem sum_range_set {f g : Nat → Nat} (hs : s < n) (h : ∀ t < n, t ≠ s → g t = f t) :
    ∑ t ∈ range n, g t + f s = ∑ t ∈ range n, f t + g s := by
  have hrest : ∑ t ∈ (range n).erase s, g t = ∑ t ∈ (range n).erase s, f t :=
    sum_congr rfl fun t ht => h t (mem_range.1 (mem_of_mem_erase ht)) (ne_of_mem_erase ht)
  grind [add_sum_erase]

theorem getD_set_self (a : Array α) (v x : α) (hs : s < a.size) : (a.setIfInBounds s v).getD s x = v := by
  simp [Array.getD_eq_getD_getElem?, hs]

theorem getD_set_ne (a : Array α) (v x : α) (h : t ≠ s) : (a.setIfInBounds s v).getD t x = a.getD t x := by
  simp_all [Ne.symm]

theorem set_getD_self (a : Array α) (s : Nat) (x : α) : a.setIfInBounds s (a.getD s x) = a := by
  refine Array.ext (by simp) fun i hi hi' => ?_
  simp_all [Array.getElem_setIfInBounds]

theorem getD_push_cases {a : Array α} (v x : α) (h : a.size = k) (hs : s < k + 1) :
    s < k ∧ (a.push v).getD s x = a.getD s x ∨ s = k ∧ (a.push v).getD s x = v := by
  rcases lt_or_eq_of_le (Nat.le_of_lt_succ hs) with hs | rfl
  · exact .inl ⟨hs, getD_push_lt _ _ _ h hs⟩
  · exact .inr ⟨rfl, getD_push_self _ _ _ h⟩

theorem getD_set_cases {a : Array α} (s : Nat) (v x : α) (h : a.size = n) (ht : t < n) :
    (a.setIfInBounds s v).getD t x = a.getD t x ∨ t = s ∧ (a.setIfInBounds s v).getD t x = v := by
  by_cases hts : t = s
  · simp_all
  · exact .inl (getD_set_ne _ _ _ hts)

/-! ### Shares -/

/-- The shares of a histogram: `states` of them in all, and none is forgotten. -/
structure Shares (count : Array Nat) (states : Nat) (norm : Array Int) : Prop where
  size : norm.size = count.size
  entry : ∀ s < count.size, count.getD s 0 = 0 ∧ norm.getD s 0 = 0 ∨ count.getD s 0 ≠ 0 ∧ (norm.getD s 0 = -1 ∨ 1 ≤ norm.getD s 0)
  sum : ∑ s ∈ range count.size, (norm.getD s 0).natAbs = states

abbrev occurrences (count : Array Nat) : Nat := ∑ s ∈ range count.size, count.getD s 0

def occurring (count : Array Nat) : Nat := ∑ s ∈ range count.size, if count.getD s 0 = 0 then 0 else 1

variable {count : Array Nat} {norm : Array Int} {lowShare : Int} {lowLimit oneLimit total given left : Nat}

theorem sum_push (F : Nat → Int → Nat) (v : Int) (h : norm.size = k) :
    ∑ s ∈ range (k + 1), F s ((norm.push v).getD s 0) = ∑ s ∈ range k, F s (norm.getD s 0) + F k v := by
  rw [sum_range_succ, getD_push_self _ _ _ h]
  congr 1
  exact sum_congr rfl fun s hs => by rw [getD_push_lt _ _ _ h (mem_range.1 hs)]

theorem sum_set (F : Nat → Int → Nat) (v : Int) (h : norm.size = n) (hs : s < n) :
    ∑ t ∈ range n, F t ((norm.setIfInBounds s v).getD t 0) + F s (norm.getD s 0) = ∑ t ∈ range n, F t (norm.getD t 0) + F s v := by
  have := sum_range_set (f := fun t => F t (norm.getD t 0)) (g := fun t => F t ((norm.setIfInBounds s v).getD t 0)) hs
    fun t _ hts => by rw [getD_set_ne _ _ _ hts]
  simp_all

/-! ### Serving rare symbols first -/

/-- The states that a share takes, where `-2` marks a symbol that waits for its share. -/
def taken (v : Int) : Nat := if v = -2 then 0 else v.natAbs

/-- Some symbols have one state each, and the others wait; `left` counts the occurrences of those. -/
structure Served (count : Array Nat) (lowShare : Int) (lowLimit total n : Nat) (norm : Array Int) (given left : Nat) : Prop where
  low : lowShare = -1 ∨ lowShare = 1
  size : norm.size = n
  entry : ∀ s < n, count.getD s 0 = 0 ∧ norm.getD s 0 = 0 ∨ count.getD s 0 ≠ 0 ∧ (norm.getD s 0 = 1 ∨
    norm.getD s 0 = lowShare ∧ count.getD s 0 ≤ lowLimit ∨ norm.getD s 0 = -2 ∧ lowLimit < count.getD s 0)
  given : given = ∑ s ∈ range n, taken (norm.getD s 0)
  left : left + ∑ s ∈ range n, (if norm.getD s 0 = -2 then 0 else count.getD s 0) = total

namespace Served

theorem push (h : Served count lowShare lowLimit total k norm given left)
    (he : count.getD k 0 = 0 ∧ v = 0 ∨ count.getD k 0 ≠ 0 ∧ (v = 1 ∨ v = lowShare ∧ count.getD k 0 ≤ lowLimit ∨ v = -2 ∧ lowLimit < count.getD k 0))
    (hg : given' = given + taken v) (hl : left' + (if v = -2 then 0 else count.getD k 0) = left) :
    Served count lowShare lowLimit total (k + 1) (norm.push v) given' left' where
  low := h.low
  size := by rw [Array.size_push, h.size]
  entry := fun s hs => by
    rcases getD_push_cases v 0 h.size hs with ⟨hs, e⟩ | ⟨rfl, e⟩ <;> rw [e]
    · exact h.entry s hs
    · exact he
  given := by rw [sum_push (fun _ => taken) v h.size, hg, h.given]
  left := by
    rw [sum_push (fun s v => if v = -2 then 0 else count.getD s 0) v h.size]
    have := h.left
    omega

theorem count_le (h : Served count lowShare lowLimit total k norm given left) (hk : k < count.size)
    (hsum : occurrences count = total) : count.getD k 0 ≤ left := by
  have hserved : ∑ s ∈ range k, (if norm.getD s 0 = -2 then 0 else count.getD s 0) ≤ ∑ s ∈ range k, count.getD s 0 :=
    sum_le_sum fun s _ => by split <;> omega
  have hpart : ∑ s ∈ range (k + 1), count.getD s 0 ≤ occurrences count :=
    sum_le_sum_of_subset (range_mono (by omega))
  rw [sum_range_succ] at hpart
  have := h.left
  omega

variable (h : Served count lowShare lowLimit total count.size norm given left)

include h

/-- What is left belongs to the symbols that wait. -/
theorem left_eq (hsum : occurrences count = total) :
    left = ∑ s ∈ range count.size, if norm.getD s 0 = -2 then count.getD s 0 else 0 := by
  have hsplit : occurrences count =
      ∑ s ∈ range count.size, (if norm.getD s 0 = -2 then count.getD s 0 else 0) +
        ∑ s ∈ range count.size, (if norm.getD s 0 = -2 then 0 else count.getD s 0) := by
    rw [← sum_add_distrib]
    exact sum_congr rfl fun s _ => by split <;> omega
  have := h.left
  omega

theorem count_pos (hs : s < count.size) (hw : norm.getD s 0 = -2) : 0 < count.getD s 0 := by
  have := h.entry s hs
  omega

theorem count_waiting (hsum : occurrences count = total) (hs : s < count.size) (hw : norm.getD s 0 = -2) :
    count.getD s 0 ≤ left := by
  have hle := single_le_sum (f := fun s => if norm.getD s 0 = -2 then count.getD s 0 else 0) (fun _ _ => Nat.zero_le _) (mem_range.2 hs)
  rwa [← h.left_eq hsum, if_pos hw] at hle

theorem serve (hsum : occurrences count = total) (hs : s < count.size) (hw : norm.getD s 0 = -2) :
    Served count lowShare lowLimit total count.size (norm.setIfInBounds s 1) (given + 1) (left - count.getD s 0) where
  low := h.low
  size := by rw [Array.size_setIfInBounds, h.size]
  entry := fun t ht => by
    have := h.entry t ht
    rcases getD_set_cases s 1 0 h.size ht with e | ⟨rfl, e⟩ <;> rw [e] <;> omega
  given := by
    have := sum_set (fun _ => taken) 1 h.size hs
    rw [hw, ← h.given] at this
    exact this.symm
  left := by
    have := sum_set (fun s v => if v = -2 then 0 else count.getD s 0) 1 h.size hs
    rw [hw, if_pos rfl, if_neg (show ¬(1 : Int) = -2 by decide)] at this
    have := h.left
    have := h.count_waiting hsum hs hw
    omega

theorem taken_le (hs : s < count.size) : taken (norm.getD s 0) ≤ if count.getD s 0 = 0 then 0 else 1 := by
  have hentry := h.entry s hs
  have := h.low
  grind [taken]

theorem given_le : given ≤ occurring count := by
  rw [h.given]
  exact sum_le_sum fun s hs => h.taken_le (mem_range.1 hs)

/-- While a symbol waits, fewer states have been given away than there are symbols. -/
theorem given_lt (hs : s < count.size) (hw : norm.getD s 0 = -2) : given < occurring count := by
  rw [h.given]
  refine sum_lt_sum (fun s hs => h.taken_le (mem_range.1 hs)) ⟨s, mem_range.2 hs, ?_⟩
  rw [hw, if_neg (h.count_pos hs hw).ne']
  exact one_pos

theorem shares (hn : ∀ s < count.size, norm.getD s 0 ≠ -2) : Shares count given norm ∧ given = occurring count := by
  have hlow := h.low
  refine ⟨⟨h.size, fun s hs => ?_, ?_⟩, ?_⟩
  · have := h.entry s hs
    have := hn s hs
    omega
  · rw [h.given]
    exact sum_congr rfl fun s hs => (if_neg (hn s (mem_range.1 hs))).symm
  · rw [h.given]
    refine sum_congr rfl fun s hs => ?_
    have := h.entry s (mem_range.1 hs)
    grind [taken]

end Served

theorem firstShares_spec (lowLimit oneLimit : Nat) (hlow : lowShare = -1 ∨ lowShare = 1) (hsum : occurrences count = total) :
    Served count lowShare lowLimit total count.size (firstShares count lowShare lowLimit oneLimit total).1
      (firstShares count lowShare lowLimit oneLimit total).2.1 (firstShares count lowShare lowLimit oneLimit total).2.2 := by
  refine foldl_getD count 0 (fun k (acc : Array Int × Nat × Nat) => Served count lowShare lowLimit total k acc.1 acc.2.1 acc.2.2) _ _
    ⟨hlow, rfl, nofun, rfl, by simp⟩ ?_
  rintro k ⟨norm, given, left⟩ hk h
  dsimp only at h ⊢
  have hle := h.count_le hk hsum
  have hpush := @h.push
  generalize count.getD k 0 = c at hle hpush ⊢
  split
  · exact hpush _ _ _ (.inl ⟨by assumption, rfl⟩) (by simp [taken]) (by simp_all)
  · split
    · refine hpush _ _ _ (.inr ⟨by assumption, .inr (.inl ⟨rfl, by assumption⟩)⟩) ?_ ?_
      · rcases hlow with rfl | rfl <;> rfl
      grind
    · split
      · exact hpush _ _ _ (.inr ⟨by assumption, .inl rfl⟩) rfl (by simp; omega)
      · exact hpush _ _ _ (.inr ⟨by assumption, .inr (.inr ⟨rfl, by omega⟩)⟩) rfl (by simp)

theorem secondShares_spec (oneLimit : Nat) (h : Served count lowShare lowLimit total count.size norm given left)
    (hsum : occurrences count = total) :
    Served count lowShare lowLimit total count.size (secondShares count norm oneLimit given left).1
      (secondShares count norm oneLimit given left).2.1 (secondShares count norm oneLimit given left).2.2 := by
  refine foldl_range (fun _ (acc : Array Int × Nat × Nat) => Served count lowShare lowLimit total count.size acc.1 acc.2.1 acc.2.2)
    _ _ _ h ?_
  rintro k ⟨norm', given', left'⟩ hk h'
  dsimp only at h' ⊢
  by_cases hw : norm'.getD k 0 = -2 ∧ count.getD k 0 ≤ oneLimit
  · rw [if_pos hw]
    exact h'.serve hsum (by rw [← h.size]; exact hk) hw.1
  · rw [if_neg hw]
    exact h'

theorem le_occurring (states : Nat) (hsum : occurrences count = total) (htotal : 0 < total)
    (h : ∀ s < count.size, count.getD s 0 ≤ total / states) : states ≤ occurring count := by
  have hle : total ≤ occurring count * (total / states) := by
    rw [← hsum, occurring, sum_mul]
    refine sum_le_sum fun s hs => ?_
    rw [hsum]
    by_cases h0 : count.getD s 0 = 0
    · simp [h0]
    · simp_all
  by_contra hlt
  have h1 : total / states * states ≤ total := Nat.div_mul_le_self _ _
  have h2 : 0 < total / states := by
    rcases Nat.eq_zero_or_pos (total / states) with h0 | h0
    · rw [h0] at hle
      omega
    · exact h0
  have h3 : occurring count * (total / states) < states * (total / states) := Nat.mul_lt_mul_of_pos_right (by omega) h2
  rw [mul_comm states] at h3
  omega

/-! ### The rest of the states -/

theorem largestIndex_spec (h : 0 < count.size) :
    largestIndex count < count.size ∧ ∀ s < count.size, count.getD s 0 ≤ count.getD (largestIndex count) 0 := by
  have hfold := foldl_range (fun k (acc : Nat × Nat) => (acc.1 < count.size ∧ acc.2 ≤ count.getD acc.1 0) ∧
      ∀ s < k, count.getD s 0 ≤ acc.2)
    (fun (acc : Nat × Nat) s =>
      let c := count.getD s 0
      if acc.2 < c then (s, c) else acc) (0, 0) count.size ⟨⟨h, Nat.zero_le _⟩, nofun⟩ ?_
  · exact ⟨hfold.1.1, fun s hs => le_trans (hfold.2 s hs) hfold.1.2⟩
  grind

/-- A symbol with a whole share takes more states, or gives some away. -/
theorem Shares.change {states' : Nat} (h : Shares count states norm) (hs : s < count.size) (hp : 0 < norm.getD s 0) (hw : 0 < w)
    (hsum : states + w = states' + norm.getD s 0) : Shares count states' (norm.setIfInBounds s w) where
  size := by rw [Array.size_setIfInBounds, h.size]
  entry := fun t ht => by
    have := h.entry t ht
    rcases getD_set_cases s w 0 h.size ht with e | ⟨rfl, e⟩ <;> rw [e] <;> omega
  sum := by
    have := sum_set (fun _ => Int.natAbs) w h.size hs
    have := h.sum
    omega

theorem Shares.raise (h : Shares count states norm) (hs : s < count.size) (hp : 0 < norm.getD s 0) (n : Nat) :
    Shares count (states + n) (norm.setIfInBounds s (norm.getD s 0 + n)) :=
  h.change hs hp (by omega) (by omega)

theorem dealOut_succ (norm : Array Int) (s fuel left : Nat) :
    dealOut norm s (fuel + 1) (left + 1) =
      if 0 < norm.getD s 0 then dealOut (norm.setIfInBounds s (norm.getD s 0 + 1)) ((s + 1) % norm.size) fuel left
      else dealOut norm ((s + 1) % norm.size) fuel (left + 1) := rfl

/-- As long as a symbol with a whole share is in reach, all states are dealt out. -/
theorem dealOut_spec (fuel left : Nat) (h : Shares count states norm) (hs : s < count.size)
    (hgap : gap < count.size) (hp : 0 < norm.getD ((s + gap) % count.size) 0)
    (hfuel : left ≠ 0 → count.size * (left - 1) + gap < fuel) : Shares count (states + left) (dealOut norm s fuel left) := by
  induction fuel generalizing norm states s left gap with
  | zero =>
    rcases left with _ | left
    · exact h
    · omega
  | succ fuel ih =>
    rcases left with _ | left
    · exact h
    · have hpos : 0 < count.size := by omega
      have hnext : (s + 1) % count.size < count.size := Nat.mod_lt _ hpos
      rw [dealOut_succ, h.size]
      by_cases hc : 0 < norm.getD s 0
      · rw [if_pos hc]
        -- the same symbol is met again a whole round later
        have hround : count.size - 1 < count.size := by omega
        rw [show states + (left + 1) = states + 1 + left by omega]
        refine ih left (h.raise hs hc 1) hnext hround ?_ ?_
        · rw [Nat.mod_add_mod, show s + 1 + (count.size - 1) = s + count.size by omega, Nat.add_mod_right, Nat.mod_eq_of_lt hs,
            getD_set_self _ _ _ (by rw [h.size]; exact hs)]
          omega
        · intro hl
          have : count.size * left = count.size * (left - 1) + count.size := by
            rw [← Nat.mul_succ]
            congr 1
            omega
          grind
      · rw [if_neg hc]
        have hg0 : gap ≠ 0 := by
          rintro rfl
          rw [add_zero, Nat.mod_eq_of_lt hs] at hp
          exact hc hp
        have hnear : gap - 1 < count.size := by omega
        refine ih (left + 1) h hnext hnear ?_ (by omega)
        rw [Nat.mod_add_mod, show s + 1 + (gap - 1) = s + gap by omega]
        exact hp

/-- One waiting symbol after the other takes its part of the rest. -/
def shareOut (count : Array Nat) (stepLog step : Nat) (acc : Array Int × Nat × Bool) (s : Nat) : Array Int × Nat × Bool :=
  let (norm, at_, ok) := acc
  if norm.getD s 0 = -2 then
    let stop := at_ + count.getD s 0 * step
    let weight := stop / 2 ^ stepLog - at_ / 2 ^ stepLog
    (norm.setIfInBounds s weight, stop, ok && 1 ≤ weight)
  else acc

/-- The parts that have been shared out add up to the way gone. -/
structure SharedOut (count : Array Nat) (stepLog step mid : Nat) (norm : Array Int) (k : Nat) (norm' : Array Int) (at_ : Nat) (ok : Bool) :
    Prop where
  size : norm'.size = norm.size
  kept : ∀ s, k ≤ s ∨ norm.getD s 0 ≠ -2 → norm'.getD s 0 = norm.getD s 0
  pos : ok = true → ∀ s < k, norm.getD s 0 = -2 → 1 ≤ norm'.getD s 0
  way : at_ = mid + (∑ s ∈ range k, if norm.getD s 0 = -2 then count.getD s 0 else 0) * step
  sum : at_ / 2 ^ stepLog = mid / 2 ^ stepLog + ∑ s ∈ range k, if norm.getD s 0 = -2 then (norm'.getD s 0).natAbs else 0

theorem shareOut_spec (count : Array Nat) (stepLog step mid : Nat) (norm : Array Int) :
    ∃ norm' at_ ok, (List.range norm.size).foldl (shareOut count stepLog step) (norm, mid, true) = (norm', at_, ok) ∧
      SharedOut count stepLog step mid norm norm.size norm' at_ ok := by
  refine ⟨_, _, _, rfl, foldl_range
    (fun k (acc : Array Int × Nat × Bool) => SharedOut count stepLog step mid norm k acc.1 acc.2.1 acc.2.2) _ _ _
    ⟨rfl, fun _ _ => rfl, nofun, by simp, by simp⟩ ?_⟩
  rintro k ⟨norm', at_, ok⟩ hk ⟨h1, h2, h3, h4, h5⟩
  dsimp only at h1 h2 h3 h4 h5
  have hkeep : norm'.getD k 0 = norm.getD k 0 := h2 k (.inl (le_refl k))
  rw [shareOut]
  rw [hkeep]
  by_cases hw : norm.getD k 0 = -2
  · rw [if_pos hw]
    dsimp only
    generalize hstop : at_ + count.getD k 0 * step = stop
    have hle : at_ / 2 ^ stepLog ≤ stop / 2 ^ stepLog := Nat.div_le_div_right (by omega)
    generalize hweight : stop / 2 ^ stepLog - at_ / 2 ^ stepLog = weight
    have hself : (norm'.setIfInBounds k (weight : Int)).getD k 0 = weight := getD_set_self _ _ _ (by rw [h1]; exact hk)
    have hne : ∀ s, s ≠ k → (norm'.setIfInBounds k (weight : Int)).getD s 0 = norm'.getD s 0 := fun s hs => getD_set_ne _ _ _ hs
    refine ⟨by rw [Array.size_setIfInBounds, h1], fun s hs => ?_, fun hok s hs hsw => ?_, ?_, ?_⟩
    · grind
    · grind
    · rw [sum_range_succ, if_pos hw, add_mul, ← add_assoc, ← h4, hstop]
    · have hcongr : ∑ s ∈ range k, (if norm.getD s 0 = -2 then ((norm'.setIfInBounds k (weight : Int)).getD s 0).natAbs else 0) =
          ∑ s ∈ range k, if norm.getD s 0 = -2 then (norm'.getD s 0).natAbs else 0 :=
        sum_congr rfl fun s hs => by rw [hne s (ne_of_lt (mem_range.1 hs))]
      rw [sum_range_succ, if_pos hw, hself, hcongr, ← add_assoc, ← h5]
      omega
  · rw [if_neg hw]
    refine ⟨h1, fun s hs => ?_, fun hok s hs hsw => ?_, ?_, ?_⟩
    · grind
    · grind
    · rw [sum_range_succ, if_neg hw]
      exact h4
    · rw [sum_range_succ, if_neg hw]
      exact h5

/-- Sharing out in steps of `rest / left`, rounded, ends exactly at the rest. -/
theorem way_div (hlog : 0 < stepLog) (hleft : 0 < left) (hle : left < 2 ^ stepLog) :
    (2 ^ (stepLog - 1) - 1 + left * ((2 ^ stepLog * rest + (2 ^ (stepLog - 1) - 1)) / left)) / 2 ^ stepLog = rest := by
  have hhalf : 2 ^ stepLog = 2 * 2 ^ (stepLog - 1) := by
    rw [← Nat.pow_succ', Nat.succ_eq_add_one, Nat.sub_add_cancel hlog]
  generalize hn : 2 ^ stepLog * rest + (2 ^ (stepLog - 1) - 1) = n
  have h1 := Nat.mod_add_div n left
  have h2 := Nat.mod_lt n hleft
  refine Nat.div_eq_of_lt_le ?_ ?_
  · rw [mul_comm]
    omega
  grind

/-- The states that are left go to the waiting symbols, or to those with whole shares. -/
def serveRest (log : Nat) (count : Array Nat) (norm : Array Int) (given left : Nat) : Option (Array Int) :=
  let rest := 2 ^ log - given
  if given = count.size then
    let s := largestIndex count
    some (norm.setIfInBounds s (norm.getD s 0 + rest))
  else if left = 0 then some (dealOut norm 0 (2 ^ log * count.size + 2 ^ log) rest)
  else
    let stepLog := 62 - log
    let mid := 2 ^ (stepLog - 1) - 1
    let step := (2 ^ stepLog * rest + mid) / left
    let (norm, _, ok) := (List.range norm.size).foldl (shareOut count stepLog step) (norm, mid, true)
    if ok then some norm else none

theorem normalizeRareFirst_eq (log : Nat) (count : Array Nat) (total : Nat) (lowShare : Int) :
    normalizeRareFirst log count total lowShare =
      let (norm, given, left) := firstShares count lowShare (total / 2 ^ log) (total * 3 / 2 ^ (log + 1)) total
      if 2 ^ log = given then some norm
      else if total * 3 / 2 ^ (log + 1) < left / (2 ^ log - given) then
        let (norm, given, left) := secondShares count norm (left * 3 / ((2 ^ log - given) * 2)) given left
        serveRest log count norm given left
      else serveRest log count norm given left := by
  unfold normalizeRareFirst
  dsimp only
  split
  · rfl
  · split <;> rfl

theorem Served.eq_one (h : Served count lowShare (total / 2 ^ log) total count.size norm given left)
    (hsum : occurrences count = total) (htotal : 0 < total) (hn : ∀ s < count.size, norm.getD s 0 ≠ -2) (hrest : occurring count < 2 ^ log) (hs : s < count.size)
    (hmax : ∀ t < count.size, count.getD t 0 ≤ count.getD s 0) : norm.getD s 0 = 1 := by
  have hlt : total / 2 ^ log < count.getD s 0 := by
    by_contra hle
    have := le_occurring (2 ^ log) hsum htotal fun t ht => le_trans (hmax t ht) (by omega)
    omega
  have := h.entry s hs
  grind

theorem occurring_le_size (count : Array Nat) : occurring count ≤ count.size := by
  have : occurring count ≤ ∑ _s ∈ range count.size, 1 := sum_le_sum fun s _ => by split <;> omega
  simpa using this

theorem occurring_le_sum (count : Array Nat) : occurring count ≤ occurrences count :=
  sum_le_sum fun s _ => by grind

theorem Served.serveRest_of_nobody
    (hs : Served count lowShare (total / 2 ^ log) total count.size norm given left)
    (hsum : occurrences count = total) (htotal : 0 < total) (hocc : occurring count ≤ 2 ^ log) (hn : ∀ s < count.size, norm.getD s 0 ≠ -2)
    (h : norm' = (let s := largestIndex count; norm.setIfInBounds s (norm.getD s 0 + (2 ^ log - given : Nat))) ∨
      norm' = dealOut norm 0 (2 ^ log * count.size + 2 ^ log) (2 ^ log - given)) : Shares count (2 ^ log) norm' := by
  obtain ⟨hshares, hgiven⟩ := hs.shares hn
  have hpos : 0 < count.size := by
    by_contra h0
    rw [occurrences, show count.size = 0 by omega] at hsum
    simp at hsum
    omega
  obtain ⟨hlt, hmax⟩ := largestIndex_spec hpos
  by_cases hrest : given = 2 ^ log
  · rw [← hrest, Nat.sub_self] at h
    rw [← hrest]
    rcases h with rfl | rfl
    · have hsame := set_getD_self norm (largestIndex count) 0
      simp_all
    · have : dealOut norm 0 (given * count.size + given) 0 = norm := by
        rcases given * count.size + given with _ | n <;> rfl
      rwa [this]
  · have hone := hs.eq_one hsum htotal hn (by omega) hlt hmax
    have hsplit : 2 ^ log = given + (2 ^ log - given) := by omega
    rcases h with rfl | rfl
    · have := hshares.raise hlt (by omega) (2 ^ log - given)
      rwa [← hsplit] at this
    · have hp : 0 < norm.getD ((0 + largestIndex count) % count.size) 0 := by
        rw [zero_add, Nat.mod_eq_of_lt hlt, hone]
        exact Int.one_pos
      have := dealOut_spec (2 ^ log * count.size + 2 ^ log) (2 ^ log - given) hshares hpos hlt hp fun _ => ?_
      · rwa [← hsplit] at this
      · have : count.size * (2 ^ log - given - 1) + count.size ≤ 2 ^ log * count.size := by
          rw [← Nat.mul_succ, mul_comm]
          exact Nat.mul_le_mul_right _ (by omega)
        omega

theorem serveRest_spec (hlog : log ≤ maxLog)
    (hsum : occurrences count = total) (htotal : 0 < total) (hmost : total < 2 ^ 31)
    (hocc : occurring count ≤ 2 ^ log) (hs : Served count lowShare (total / 2 ^ log) total count.size norm given left)
    (h : serveRest log count norm given left = some norm') : Shares count (2 ^ log) norm' := by
  have hleft := hs.left_eq hsum
  have hlogs : maxLog = 12 := rfl
  unfold serveRest at h
  by_cases hall : given = count.size
  · rw [if_pos hall] at h
    refine hs.serveRest_of_nobody hsum htotal hocc (fun s hs' hw => ?_) (.inl (Option.some.inj h).symm)
    have := hs.given_lt hs' hw
    grind [occurring_le_size]
  rw [if_neg hall] at h
  by_cases h0 : left = 0
  · rw [if_pos h0] at h
    refine hs.serveRest_of_nobody hsum htotal hocc (fun s hs' hw => ?_) (.inr (Option.some.inj h).symm)
    have := hs.count_pos hs' hw
    have := hs.count_waiting hsum hs' hw
    omega
  rw [if_neg h0] at h
  obtain ⟨norm'', at_, ok, hfold, hshared⟩ := shareOut_spec count (62 - log)
    ((2 ^ (62 - log) * (2 ^ log - given) + (2 ^ (62 - log - 1) - 1)) / left) (2 ^ (62 - log - 1) - 1) norm
  dsimp only at h
  rw [hfold] at h
  dsimp only at h
  split at h
  case isFalse => exact nomatch h
  rename_i hok
  cases h
  have hmid : (2 ^ (62 - log - 1) - 1) / 2 ^ (62 - log) = 0 := by
    refine Nat.div_eq_of_lt ?_
    have : 2 ^ (62 - log - 1) ≤ 2 ^ (62 - log) := Nat.pow_le_pow_right (by omega) (by omega)
    have := Nat.two_pow_pos (62 - log - 1)
    omega
  have hway := hshared.way
  have htold := hshared.sum
  rw [hs.size] at hway htold hshared
  rw [← hleft] at hway
  rw [hmid, zero_add, hway, way_div (by omega) (by omega) ?_] at htold
  · have hgl := hs.given_le
    have hlow := hs.low
    refine ⟨by rw [hshared.size, hs.size], fun s hs' => ?_, ?_⟩
    · have := hs.entry s hs'
      by_cases hw : norm.getD s 0 = -2
      · have := hshared.pos hok s hs' hw
        omega
      · rw [hshared.kept s (.inr hw)]
        omega
    · have hsplit : ∑ s ∈ range count.size, (norm'.getD s 0).natAbs = ∑ s ∈ range count.size, taken (norm.getD s 0) +
          ∑ s ∈ range count.size, (if norm.getD s 0 = -2 then (norm'.getD s 0).natAbs else 0) := by
        rw [← sum_add_distrib]
        refine sum_congr rfl fun s hs' => ?_
        unfold taken
        split
        · rw [zero_add]
        · rename_i hw
          rw [hshared.kept s (.inr hw), add_zero]
      grind [Served.given]
  · have h1 := hs.left
    have h2 : 2 ^ 31 ≤ 2 ^ (62 - log) := Nat.pow_le_pow_right (by omega) (by omega)
    omega

/-- Serving the rare symbols first gives shares for all states. -/
theorem normalizeRareFirst_spec (hlog : log ≤ maxLog) (hlow : lowShare = -1 ∨ lowShare = 1)
    (hsum : occurrences count = total) (htotal : 0 < total) (hmost : total < 2 ^ 31)
    (hocc : occurring count ≤ 2 ^ log) (h : normalizeRareFirst log count total lowShare = some norm) :
    Shares count (2 ^ log) norm := by
  have hfirst := firstShares_spec (total / 2 ^ log) (total * 3 / 2 ^ (log + 1)) hlow hsum
  rw [normalizeRareFirst_eq] at h
  generalize firstShares count lowShare (total / 2 ^ log) (total * 3 / 2 ^ (log + 1)) total = acc at h hfirst
  obtain ⟨norm', given, left⟩ := acc
  dsimp only at h hfirst
  split at h
  · rename_i hall
    cases h
    rw [hall]
    refine (hfirst.shares fun s hs hw => ?_).1
    have := hfirst.given_lt hs hw
    omega
  · split at h
    · have hsecond := secondShares_spec (left * 3 / ((2 ^ log - given) * 2)) hfirst hsum
      grind [serveRest_spec]
    grind [serveRest_spec]

/-! ### Plain rounding -/

theorem plainShare_pos (hlog : log ≤ maxLog) (htotal : 0 < total) (hmost : total < 2 ^ 31)
    (hc : total / 2 ^ log < c) : 0 < plainShare log total c := by
  have hstep : 2 ^ (62 - log) ≤ c * (2 ^ 62 / total) := by
    have h1 : total < c * 2 ^ log := (Nat.div_lt_iff_lt_mul (Nat.two_pow_pos log)).1 hc
    have h2 := Nat.mod_add_div (2 ^ 62) total
    have h3 := Nat.mod_lt (2 ^ 62) htotal
    have h4 : 2 ^ 31 ≤ 2 ^ 62 / total := by
      rw [Nat.le_div_iff_mul_le htotal]
      calc 2 ^ 31 * total ≤ 2 ^ 31 * 2 ^ 31 := Nat.mul_le_mul_left _ (le_of_lt hmost)
        _ = 2 ^ 62 := by norm_num
    have h5 : 2 ^ log * 2 ^ (62 - log) = 2 ^ 62 := by
      rw [← pow_add]
      congr 1
      have : maxLog = 12 := rfl
      omega
    -- a whole step more than `total` of them is enough for `2 ^ 62`
    have h6 : (total + 1) * (2 ^ 62 / total) ≤ c * 2 ^ log * (2 ^ 62 / total) := Nat.mul_le_mul_right _ h1
    rw [add_mul, one_mul] at h6
    refine Nat.le_of_mul_le_mul_left ?_ (Nat.two_pow_pos log)
    rw [h5, ← mul_assoc, mul_comm (2 ^ log)]
    omega
  have hshare : 0 < c * (2 ^ 62 / total) / 2 ^ (62 - log) := Nat.div_pos hstep (Nat.two_pow_pos _)
  grind [plainShare]

/-- What plain rounding knows after the first `k` symbols. -/
structure Rounded (log : Nat) (count : Array Nat) (total : Nat) (k : Nat) (norm : Array Int) (left : Int) (largest share : Nat) :
    Prop where
  size : norm.size = k
  entry : ∀ s < k, count.getD s 0 = 0 ∧ norm.getD s 0 = 0 ∨ count.getD s 0 ≠ 0 ∧
    (count.getD s 0 ≤ total / 2 ^ log ∧ (norm.getD s 0 = -1 ∨ norm.getD s 0 = 1) ∨ total / 2 ^ log < count.getD s 0 ∧ 1 ≤ norm.getD s 0)
  left : left + (∑ s ∈ range k, (norm.getD s 0).natAbs : Nat) = (2 ^ log : Nat)
  largest : share = 0 ∧ largest = 0 ∧ (∀ s < k, count.getD s 0 ≤ total / 2 ^ log) ∨
    0 < share ∧ largest < k ∧ norm.getD largest 0 = share

/-- One symbol of the plain rounding. -/
def roundOne (log total : Nat) (lowShare : Int) (acc : Array Int × Int × Nat × Nat) (c : Nat) : Array Int × Int × Nat × Nat :=
  let (norm, left, largest, largestShare) := acc
  if c = 0 then (norm.push 0, left, largest, largestShare)
  else if c ≤ total / 2 ^ log then (norm.push lowShare, left - 1, largest, largestShare)
  else
    let share := plainShare log total c
    let s := norm.size
    let (largest, largestShare) := if largestShare < share then (s, share) else (largest, largestShare)
    (norm.push share, left - share, largest, largestShare)

namespace Rounded

variable {log k largest share : Nat} {left : Int}

theorem push (h : Rounded log count total k norm left largest share)
    (he : count.getD k 0 = 0 ∧ v = 0 ∨ count.getD k 0 ≠ 0 ∧
      (count.getD k 0 ≤ total / 2 ^ log ∧ (v = -1 ∨ v = 1) ∨ total / 2 ^ log < count.getD k 0 ∧ 1 ≤ v)) (hl : left' + v.natAbs = left)
    (hlargest : share' = share ∧ largest' = largest ∧ (0 < share ∨ count.getD k 0 ≤ total / 2 ^ log) ∨
      0 < share' ∧ largest' = k ∧ v = share') :
    Rounded log count total (k + 1) (norm.push v) left' largest' share' where
  size := by rw [Array.size_push, h.size]
  entry := fun s hs => by
    rcases getD_push_cases v 0 h.size hs with ⟨hs, e⟩ | ⟨rfl, e⟩ <;> rw [e]
    · exact h.entry s hs
    · exact he
  left := by
    rw [sum_push (fun _ => Int.natAbs) v h.size]
    have := h.left
    omega
  largest := by
    rcases hlargest with ⟨rfl, rfl, hc⟩ | ⟨h1, rfl, rfl⟩
    · rcases h.largest with ⟨h1, h2, h3⟩ | ⟨h1, h2, h3⟩
      · grind
      · exact .inr ⟨h1, by omega, by rw [getD_push_lt _ _ _ h.size h2, h3]⟩
    · exact .inr ⟨h1, by omega, getD_push_self _ _ _ h.size⟩

end Rounded

theorem rounded (count : Array Nat) (log : Nat) (hlow : lowShare = -1 ∨ lowShare = 1) (hlog : log ≤ maxLog) (htotal : 0 < total) (hmost : total < 2 ^ 31) :
    ∃ norm left largest share, count.foldl (roundOne log total lowShare) (#[], (2 ^ log : Nat), 0, 0) = (norm, left, largest, share) ∧
      Rounded log count total count.size norm left largest share := by
  refine ⟨_, _, _, _, rfl, foldl_getD count 0
    (fun k (acc : Array Int × Int × Nat × Nat) => Rounded log count total k acc.1 acc.2.1 acc.2.2.1 acc.2.2.2) _ _
    ⟨rfl, nofun, by simp, .inl ⟨rfl, rfl, nofun⟩⟩ ?_⟩
  rintro k ⟨norm, left, largest, share⟩ hk h
  have hpush := @h.push
  have hpos := @plainShare_pos total log (count.getD k 0) hlog htotal hmost
  unfold roundOne
  dsimp only
  generalize count.getD k 0 = c at hpush hpos ⊢
  generalize total / 2 ^ log = low at hpush hpos ⊢
  by_cases h0 : c = 0
  · simp_all
  rw [if_neg h0]
  by_cases hc : c ≤ low
  · grind
  rw [if_neg hc]
  have hp := hpos (by omega)
  refine hpush _ _ _ _ (.inr ⟨h0, .inr ⟨by omega, by omega⟩⟩) (by dsimp only; omega) ?_
  split
  · exact .inr ⟨hp, h.size, rfl⟩
  grind

theorem normalize_eq (log : Nat) (count : Array Nat) (total : Nat) (rare : Bool) :
    normalize log count total rare =
      if log < minLog ∨ maxLog < log ∨ log < leastLog total (count.size - 1) then none
      else
        let lowShare : Int := if rare then -1 else 1
        let (norm, left, largest, _) := count.foldl (roundOne log total lowShare) (#[], (2 ^ log : Nat), 0, 0)
        if (norm.getD largest 0).fdiv 2 ≤ -left then
          (normalizeRareFirst log count total lowShare).map fun counts => { log, counts }
        else some { log, counts := norm.setIfInBounds largest (norm.getD largest 0 + left) } := rfl

/-- There are as many states as symbols that occur. -/
theorem occurring_le (hsum : occurrences count = total)
    (h : leastLog total (count.size - 1) ≤ log) : occurring count ≤ 2 ^ log := by
  unfold leastLog highBit at h
  rcases le_total (total.log2 + 1) ((count.size - 1).log2 + 2) with hle | hle
  · have h1 : total < 2 ^ (total.log2 + 1) := Nat.lt_log2_self
    have h2 : 2 ^ (total.log2 + 1) ≤ 2 ^ log := Nat.pow_le_pow_right (by omega) (by omega)
    grind [occurring_le_sum]
  · have h1 : count.size - 1 < 2 ^ ((count.size - 1).log2 + 1) := Nat.lt_log2_self
    have h2 : 2 ^ ((count.size - 1).log2 + 1) ≤ 2 ^ log := Nat.pow_le_pow_right (by omega) (by omega)
    grind [occurring_le_size]

/-- The most frequent symbol can take what plain rounding left, or make up for it. -/
theorem Rounded.shares {log largest share : Nat} {left : Int} (h : Rounded log count total count.size norm left largest share)
    (hsum : occurrences count = total) (htotal : 0 < total) (hleft : -left < (norm.getD largest 0).fdiv 2) : Shares count (2 ^ log) (norm.setIfInBounds largest (norm.getD largest 0 + left)) := by
  rw [Int.fdiv_eq_ediv_of_nonneg _ (by omega)] at hleft
  have htold := h.left
  have hentry := h.entry
  rcases h.largest with ⟨-, rfl, hrare⟩ | ⟨hpos, hlt, heq⟩
  · -- without a whole share, all states are given away already
    have hocc := le_occurring (2 ^ log) hsum htotal hrare
    have hterm : ∀ s < count.size, (if count.getD s 0 = 0 then 0 else 1) = (norm.getD s 0).natAbs := fun s hs => by
      grind
    rw [occurring, sum_congr rfl fun s hs => hterm s (mem_range.1 hs)] at hocc
    have hfirst : norm.getD 0 0 ≤ 1 := by
      rcases Nat.eq_zero_or_pos count.size with hz | hz
      · simp_all
      · grind
    omega
  · have hshares : Shares count (∑ s ∈ range count.size, (norm.getD s 0).natAbs) norm :=
      ⟨h.size, fun s hs => by have := h.entry s hs; omega, rfl⟩
    exact hshares.change hlt (by omega) (by omega) (by omega)

theorem normalize_shares (hsum : occurrences count = total)
    (htotal : 0 < total) (hmost : total < 2 ^ 31) (h : normalize log count total rare = some d) :
    minLog ≤ log ∧ log ≤ maxLog ∧ d.log = log ∧ Shares count (2 ^ log) d.counts := by
  rw [normalize_eq] at h
  split at h
  case isTrue => exact nomatch h
  have hleast : leastLog total (count.size - 1) ≤ log := by omega
  have hlow : (if rare then -1 else 1 : Int) = -1 ∨ (if rare then -1 else 1 : Int) = 1 := by cases rare <;> simp
  refine ⟨by omega, by omega, ?_⟩
  obtain ⟨norm, left, largest, share, hfold, hr⟩ := rounded count log hlow (by omega) htotal hmost
  dsimp only at h
  rw [hfold] at h
  dsimp only at h
  split at h
  · obtain ⟨counts, hcounts, rfl⟩ := Option.map_eq_some_iff.1 h
    exact ⟨rfl, normalizeRareFirst_spec (by omega) hlow hsum htotal hmost (occurring_le hsum hleast) hcounts⟩
  · cases h
    exact ⟨rfl, hr.shares hsum htotal (by omega)⟩

/-- A scaled histogram is a valid distribution in which every symbol that occurs has a state. -/
theorem normalize_valid (hsum : occurrences count = total)
    (htotal : 0 < total) (hmost : total < 2 ^ 31) (h : normalize log count total rare = some d) :
    d.Valid ∧ d.log = log ∧ d.counts.size = count.size ∧ ∀ s, 0 < d.share s ↔ count.getD s 0 ≠ 0 := by
  obtain ⟨hmin, hmax, hlog, hshares⟩ := normalize_shares hsum htotal hmost h
  have hge : ∀ s, count.size ≤ s → count.getD s 0 = 0 ∧ d.count s = 0 := fun s hs => by
    grind [Distribution.count, Shares.size]
  have hentry : ∀ s, count.getD s 0 = 0 ∧ d.count s = 0 ∨ count.getD s 0 ≠ 0 ∧ (d.count s = -1 ∨ 1 ≤ d.count s) := fun s => by
    rcases lt_or_ge s count.size with hs | hs
    · exact hshares.entry s hs
    · exact .inl (hge s hs)
  refine ⟨⟨by omega, by omega, fun s => ?_, ?_⟩, hlog, hshares.size, fun s => ?_⟩
  · have := hentry s
    omega
  · rw [sum_range_eq, hshares.size, hlog]
    exact hshares.sum
  grind [Distribution.share]

theorem bestLog_le (h : leastLog total maxSymbol ≤ limit) (h5 : minLog ≤ limit) :
    bestLog limit total maxSymbol margin ≤ limit := by
  grind [bestLog]

end ZstCodec.Fse
