import Mathlib.Data.List.Perm.Basic
import ZstCodec.Huffman.Code
import ZstCodec.Proofs.Histogram

/-! # Ranking keeps every symbol

However the groups are sorted, the ranking holds each symbol once, and the symbols that do not occur stand at its end. -/

namespace ZstCodec.Huffman

namespace Ranking

variable {r : Ranking}

theorem swap_perm (hi : i < r.size) (hj : j < r.size) : (r.swap i j).Perm r := by
  have heq : r.swap i j = Array.swap r i j := by
    unfold swap
    rw [Array.swap_def]
    simp only [Array.getD_eq_getD_getElem?, Array.getElem?_eq_getElem hi, Array.getElem?_eq_getElem hj, Option.getD_some,
      Array.setIfInBounds_def, hi, hj, dite_true, Array.size_set]
  rw [heq]
  exact Array.swap_perm hi hj

/-- A leaf that sinks ends up somewhere, and the leaves it passes move up by one. -/
theorem sink_perm (r : Ranking) (low : Nat) (key : Leaf) (j : Nat) (hj : j < r.size) :
    (r.sink low key j).Perm (r.setIfInBounds j key) := by
  induction j generalizing r with
  | zero => exact Array.Perm.refl _
  | succ j ih =>
    rw [sink]
    split
    · refine (ih (r.setIfInBounds (j + 1) (r.getD j default)) (by simp; omega)).trans ?_
      have hlt : j < (r.setIfInBounds (j + 1) key).size := by
        simp
        omega
      have hlt' : j + 1 < (r.setIfInBounds (j + 1) key).size := by
        simp
        omega
      have hswap := swap_perm hlt hlt'
      have heq : Ranking.swap (r.setIfInBounds (j + 1) key) j (j + 1) =
          (r.setIfInBounds (j + 1) (r.getD j default)).setIfInBounds j key := by
        unfold swap
        rw [Fse.getD_set_self _ _ _ (by omega), Fse.getD_set_ne _ _ _ (by omega), Array.setIfInBounds_comm _ _ (by omega),
          Array.setIfInBounds_setIfInBounds]
      rwa [heq] at hswap
    · exact Array.Perm.refl _

theorem insertionSort_perm (r : Ranking) (low n : Nat) (h : low + n < r.size ∨ n = 0) : (r.insertionSort low n).Perm r := by
  refine Fse.foldl_range (fun _ (r' : Ranking) => r'.Perm r) _ _ _ (Array.Perm.refl r) ?_
  intro k r' hk hr'
  have hlt : low + k + 1 < r'.size := by
    rw [hr'.size_eq]
    omega
  have := sink_perm r' low (r'.getD (low + k + 1) default) (low + k + 1) hlt
  rw [Fse.set_getD_self] at this
  exact this.trans hr'

theorem gather_spec (r : Ranking) (pivot i j n : Nat) (hij : i ≤ j) (hn : j + n ≤ r.size) :
    (r.gather pivot i j n).1.Perm r ∧ i ≤ (r.gather pivot i j n).2 ∧ (r.gather pivot i j n).2 ≤ j + n := by
  induction n generalizing r i j with
  | zero => exact ⟨Array.Perm.refl r, le_refl i, hij⟩
  | succ n ih =>
    rw [gather]
    split
    · have hswap := swap_perm (r := r) (i := i) (j := j) (by omega) (by omega)
      obtain ⟨h1, h2, h3⟩ := ih (r.swap i j) (i + 1) (j + 1) (by omega) (by rw [hswap.size_eq]; omega)
      exact ⟨h1.trans hswap, by omega, by omega⟩
    grind

theorem quickSort_perm (r : Ranking) (fresh : Bool) (low high fuel : Nat) (h : high ≤ r.size) :
    (r.quickSort fresh low high fuel).Perm r := by
  induction fuel generalizing r fresh low high with
  | zero => exact Array.Perm.refl r
  | succ fuel ih =>
    rw [quickSort]
    split
    · grind [insertionSort_perm]
    · split
      · obtain ⟨h1, h2, h3⟩ := gather_spec r (r.count (high - 1)) low low (high - 1 - low) (le_refl low) (by omega)
        unfold partition
        generalize r.gather (r.count (high - 1)) low low (high - 1 - low) = g at h1 h2 h3 ⊢
        obtain ⟨r', i⟩ := g
        dsimp only at h1 h2 h3 ⊢
        have hsize := h1.size_eq
        have hperm : (r'.swap i (high - 1)).Perm r := (swap_perm (by omega) (by omega)).trans h1
        have hsize' := hperm.size_eq
        split
        · have hleft := ih (r'.swap i (high - 1)) true low i (by omega)
          exact ((ih _ false (i + 1) high (by rw [hleft.size_eq]; omega)).trans hleft).trans hperm
        · have hright := ih (r'.swap i (high - 1)) true (i + 1) high (by omega)
          exact ((ih _ false low i (by rw [hright.size_eq]; omega)).trans hright).trans hperm
      · exact Array.Perm.refl r

end Ranking

/-! ### Groups -/

def leaves (counts : Array Nat) : List Leaf := (List.range counts.size).map fun s => { count := counts.getD s 0, symbol := s }

theorem group_lt (h : c < 2 ^ 31) : group c < 192 := by
  unfold group
  split
  · omega
  · have : highBit c < 31 := by
      rw [highBit, Nat.log2_lt (by omega)]
      exact h
    omega

theorem group_eq_zero (c : Nat) : group c = 0 ↔ c = 0 := by
  unfold group
  split <;> omega

theorem getD_groups (counts : Array Nat) (h : ∀ s, counts.getD s 0 < 2 ^ 31) (g : Nat) :
    ((groups counts).getD g #[]).toList = (leaves counts).filter fun leaf => group leaf.count = g := by
  have hfold := Fse.foldl_range (fun k (t : Array Ranking) => t.size = 192 ∧ ∀ g, (t.getD g #[]).toList =
      ((List.range k).map fun s => ({ count := counts.getD s 0, symbol := s } : Leaf)).filter fun leaf => group leaf.count = g)
    (fun (t : Array Ranking) s =>
      let c := counts.getD s 0
      t.modify (group c) (·.push { count := c, symbol := s })) (Array.replicate 192 #[]) counts.size ⟨by simp, fun g => ?_⟩ ?_
  · exact hfold.2 g
  · by_cases hg : g < 192 <;> simp [Array.getD_eq_getD_getElem?, hg]
  · rintro k t hk ⟨h1, h2⟩
    have hlt := group_lt (h k)
    refine ⟨by simpa using h1, fun g => ?_⟩
    rw [List.range_succ, List.map_append, List.filter_append, ← h2 g, List.map_singleton, List.filter_singleton]
    generalize counts.getD k 0 = c at hlt ⊢
    by_cases hg : group c = g
    · rw [Array.getD_eq_getD_getElem?, Array.getD_eq_getD_getElem?, Array.getElem?_modify, if_pos hg,
        Array.getElem?_eq_getElem (by omega)]
      simp [hg]
    simp_all [Array.getElem?_modify]

/-- A list is all its classes one after the other, the highest first. -/
theorem flatMap_filter_perm {α : Type} (l : List α) (f : α → Nat) (n : Nat) (h : ∀ a ∈ l, f a < n) :
    ((List.range n).flatMap fun i => l.filter fun a => f a = n - 1 - i).Perm l := by
  induction n generalizing l with
  | zero =>
    simp_all [List.eq_nil_iff_forall_not_mem]
  | succ n ih =>
    rw [List.range_succ_eq_map, List.flatMap_cons, List.flatMap_map]
    have hrest : ((List.range n).flatMap fun i => l.filter fun a => f a = n + 1 - 1 - i.succ) =
        (List.range n).flatMap fun i => (l.filter fun a => ! decide (f a = n)).filter fun a => f a = n - 1 - i := by
      refine List.flatMap_congr fun i hi => ?_
      rw [List.filter_filter]
      refine List.filter_congr fun a _ => ?_
      have := List.mem_range.1 hi
      rw [Bool.eq_iff_iff]
      simp only [decide_eq_true_eq, Bool.and_eq_true, Bool.not_eq_true', decide_eq_false_iff_not]
      omega
    rw [hrest]
    refine (List.Perm.append_left _ (ih _ fun a ha => ?_)).trans ?_
    · grind
    · exact List.filter_append_perm _ l

/-- The ranking holds every symbol once; those that do not occur stand at the end. -/
theorem rank_spec (counts : Array Nat) (h : ∀ s, counts.getD s 0 < 2 ^ 31) :
    (rank counts).toList.Perm (leaves counts) ∧
      ∃ front back, (rank counts).toList = front ++ back ∧ (∀ leaf ∈ front, leaf.count ≠ 0) ∧ ∀ leaf ∈ back, leaf.count = 0 := by
  -- what group `g` contributes, in whatever order
  obtain ⟨part, hpart, hrank⟩ : ∃ part : Nat → List Leaf,
      (∀ g, (part g).Perm ((leaves counts).filter fun leaf => group leaf.count = g)) ∧
        (rank counts).toList = (List.range 192).flatMap fun i => part (191 - i) := by
    refine ⟨fun g => (if 164 ≤ g then ((groups counts).getD g #[]).quickSort true 0 ((groups counts).getD g #[]).size
        (2 * ((groups counts).getD g #[]).size + 2) else (groups counts).getD g #[]).toList, fun g => ?_, ?_⟩
    · rw [← getD_groups counts h g]
      dsimp only
      split
      · exact (Ranking.quickSort_perm _ _ _ _ _ le_rfl).toList
      · exact List.Perm.refl _
    · refine Fse.foldl_range (fun k (r : Ranking) => r.toList = (List.range k).flatMap _) _ _ _ rfl ?_
      simp [List.range_succ]
  have hmem : ∀ g, ∀ leaf ∈ part g, group leaf.count = g := fun g leaf hleaf => by
    grind
  refine ⟨?_, (List.range 191).flatMap fun i => part (191 - i), part 0, ?_, fun leaf hleaf => ?_, fun leaf hleaf => ?_⟩
  · rw [hrank]
    refine (List.Perm.flatMap_left _ fun i _ => hpart (191 - i)).trans (flatMap_filter_perm _ (fun leaf : Leaf => group leaf.count) 192 fun leaf hleaf => ?_)
    obtain ⟨s, -, rfl⟩ := List.mem_map.1 hleaf
    exact group_lt (h s)
  · grind [List.range_succ]
  · obtain ⟨i, hi, hleaf⟩ := List.mem_flatMap.1 hleaf
    have h1 := hmem _ leaf hleaf
    have h2 := List.mem_range.1 hi
    intro h0
    rw [h0, (group_eq_zero 0).2 rfl] at h1
    omega
  grind [group_eq_zero]

end ZstCodec.Huffman
