import ZstCodec.Histogram
import ZstCodec.Proofs.Fse.Normalize

/-! # What a histogram counts

A histogram is `Of` a list when it ends with the list's largest entry and no entry is more frequent than it says. -/

namespace ZstCodec

open Finset

variable {n v : Nat}

/-- The bytes of a part of a byte string, as numbers. -/
def numbersAt (b : ByteArray) (i n : Nat) : List Nat := (List.range' i n).map (natAt b)

@[simp] theorem length_numbersAt (b : ByteArray) (i n : Nat) : (numbersAt b i n).length = n := by
  simp [numbersAt]

theorem mem_numbersAt : v ∈ numbersAt b i n ↔ ∃ k < n, natAt b (i + k) = v := by
  grind [numbersAt, Nat.add_sub_cancel']

namespace Histogram

/-- A histogram of the entries of a list. -/
structure Of (h : Histogram) (l : List Nat) : Prop where
  count : ∀ s, h.counts.getD s 0 = l.count s
  pos : 0 < h.counts.size
  le : h.counts.size ≤ 256
  last : l ≠ [] → l.count (h.counts.size - 1) ≠ 0
  ge : ∀ s, l.count s ≤ h.largest
  largest : ∃ s, h.largest = l.count s

/-! ### Trimming -/

theorem trim_spec (a : Array Nat) (n : Nat) (hn : a.size = n) :
    (∀ s, (trim a n).getD s 0 = a.getD s 0) ∧ (trim a n).size ≤ n ∧ (0 < n → 0 < (trim a n).size) ∧
      (1 < (trim a n).size → (trim a n).getD ((trim a n).size - 1) 0 ≠ 0) := by
  induction n generalizing a with
  | zero => exact ⟨fun _ => rfl, by rw [trim, hn], by omega, by rw [trim, hn]; omega⟩
  | succ n ih =>
    rw [trim]
    by_cases h : a.getD n 0 = 0 ∧ 0 < n
    · rw [if_pos h]
      obtain ⟨h1, h2, h3, h4⟩ := ih a.pop (by simp [hn])
      refine ⟨fun s => ?_, by omega, fun _ => h3 h.2, h4⟩
      rw [h1]
      rcases lt_trichotomy s n with hs | rfl | hs
      · have hs' : s < a.size - 1 := by omega
        simp [Array.getD_eq_getD_getElem?, hs', show s < a.size by omega]
      · grind
      grind
    · rw [if_neg h]
      refine ⟨fun _ => rfl, by omega, fun _ => by omega, fun hlt => ?_⟩
      rw [hn, Nat.add_sub_cancel]
      exact fun h0 => h ⟨h0, by omega⟩

theorem foldl_max_spec (a : Array Nat) :
    (∀ s, a.getD s 0 ≤ a.foldl max 0) ∧ ∃ s, a.foldl max 0 = a.getD s 0 := by
  have hfold := Fse.foldl_getD a 0 (fun k (m : Nat) => (∀ s < k, a.getD s 0 ≤ m) ∧ (m = 0 ∨ ∃ s, m = a.getD s 0)) max 0
    ⟨nofun, .inl rfl⟩ ?_
  · have hge : ∀ s, a.size ≤ s → a.getD s 0 = 0 := fun s hs => by simp [Array.getD_eq_getD_getElem?, hs]
    refine ⟨fun s => ?_, ?_⟩
    · grind
    · rcases hfold.2 with h0 | h0
      · exact ⟨a.size, by rw [h0, hge _ le_rfl]⟩
      · exact h0
  grind

theorem of_ofCounts (hsize : a.size = 256) (h : ∀ s, a.getD s 0 = l.count s) : (ofCounts a).Of l := by
  obtain ⟨h1, h2, h3, h4⟩ := trim_spec a a.size rfl
  obtain ⟨h5, s, h6⟩ := foldl_max_spec a
  refine ⟨fun s => by rw [← h s]; exact h1 s, h3 (by omega), by rw [← hsize]; exact h2, fun hl => ?_, fun s => by rw [← h s]; exact h5 s,
    s, by rw [← h s]; exact h6⟩
  have heq : ∀ s, (ofCounts a).counts.getD s 0 = l.count s := fun s => by rw [← h s]; exact h1 s
  rcases lt_or_ge 1 (ofCounts a).counts.size with hlt | hle
  · rw [← heq]
    exact h4 hlt
  · -- a single entry counts everything
    obtain ⟨v, hv⟩ := List.exists_mem_of_ne_nil l hl
    have hc : l.count v ≠ 0 := by
      have := List.count_pos_iff.2 hv
      omega
    have hv0 : v = 0 := by
      by_contra hne
      refine hc ?_
      rw [← heq, Array.getD_eq_getD_getElem?, Array.getElem?_eq_none (by omega)]
      rfl
    simp_all

/-! ### Counting -/

theorem getD_modify (a : Array Nat) (hs : s < a.size) (t : Nat) :
    (a.modify s (· + 1)).getD t 0 = a.getD t 0 + if t = s then 1 else 0 := by
  by_cases ht : t = s
  · simp_all [Array.getElem_modify_self]
  simp_all [Array.getElem?_modify, Ne.symm]

theorem countBytes_spec (b : ByteArray) (i : Nat) (a : Array Nat) (n : Nat) (ha : a.size = 256) :
    (countBytes b i a n).size = 256 ∧ ∀ s, (countBytes b i a n).getD s 0 = a.getD s 0 + (numbersAt b i n).count s := by
  induction n generalizing i a with
  | zero => simp_all [countBytes, numbersAt]
  | succ n ih =>
    obtain ⟨h1, h2⟩ := ih (i + 1) (a.modify (natAt b i) (· + 1)) (by simpa using ha)
    refine ⟨h1, fun s => ?_⟩
    rw [countBytes, h2, getD_modify _ (by rw [ha]; exact natAt_lt b i)]
    simp only [numbersAt, List.range'_succ, List.map_cons, List.count_cons, beq_iff_eq]
    grind

theorem ofBytes_of (b : ByteArray) (i n : Nat) : (ofBytes b i n).Of (numbersAt b i n) := by
  obtain ⟨h1, h2⟩ := countBytes_spec b i (Array.replicate 256 0) n (by simp)
  refine of_ofCounts h1 fun s => ?_
  rw [h2]
  by_cases hs : s < 256 <;> simp [Array.getD_eq_getD_getElem?, hs]

theorem ofSymbols_of (h : ∀ s ∈ symbols, s < 256) : (ofSymbols symbols).Of symbols.toList := by
  have hfold := Fse.foldl_getD symbols 0
    (fun k (a : Array Nat) => a.size = 256 ∧ ∀ s, a.getD s 0 = (symbols.toList.take k).count s)
    (fun a s => a.modify s (· + 1)) (Array.replicate 256 0) ⟨by simp, fun s => ?_⟩ ?_
  · refine of_ofCounts hfold.1 fun s => ?_
    grind [Array.length_toList]
  · by_cases hs : s < 256 <;> simp [Array.getD_eq_getD_getElem?, hs]
  · rintro k a hk ⟨h1, h2⟩
    have hmem : symbols.getD k 0 = symbols[k] := by simp [Array.getD_eq_getD_getElem?, hk]
    refine ⟨by simpa using h1, fun s => ?_⟩
    rw [getD_modify _ (by simp_all), h2, List.take_add_one, hmem,
      List.getElem?_eq_getElem (by simpa using hk), Option.toList_some, List.count_append, Array.getElem_toList, List.count_singleton]
    grind

/-! ### Totals -/

theorem sum_count (l : List Nat) (h : ∀ v ∈ l, v < n) : ∑ s ∈ range n, l.count s = l.length := by
  induction l with
  | nil => simp
  | cons v l ih =>
    simp_all [List.count_cons, sum_add_distrib]

namespace Of

variable {h : Histogram} {l : List Nat}

theorem mem_lt (hl : h.Of l) (hv : v ∈ l) : v < h.counts.size := by
  have h0 := hl.count v
  grind

theorem sum (hl : h.Of l) : ∑ s ∈ range h.counts.size, h.counts.getD s 0 = l.length := by
  rw [← sum_count l fun v hv => hl.mem_lt hv]
  exact sum_congr rfl fun s _ => hl.count s

/-- If one entry is not all there is, no entry is. -/
theorem count_lt (hl : h.Of l) (hlt : h.largest ≠ l.length) (s : Nat) : l.count s < l.length := by
  obtain ⟨t, ht⟩ := hl.largest
  have h2 := hl.ge s
  grind

theorem distinct_eq (h : Histogram) : h.distinct = Fse.occurring h.counts := by
  have hfold := Fse.foldl_getD h.counts 0 (fun k n => n = ∑ s ∈ range k, if h.counts.getD s 0 = 0 then 0 else 1)
    (fun n c => if c = 0 then n else n + 1) 0 rfl ?_
  · exact hfold
  · rintro k n hk rfl
    rw [sum_range_succ]
    grind

end Of

end Histogram

end ZstCodec
