import Mathlib.Order.Interval.Finset.Nat
import Mathlib.Algebra.BigOperators.Intervals
import ZstCodec.Proofs.Huffman.Rank

/-! # Depths of the tree

Every merger has two children, so the leaves fill the code space exactly. What is taken later hangs under a later merger
and is no deeper, so the depths rise along the ranking, sorted or not. -/

namespace ZstCodec.Huffman

open Finset

/-! ### Merging -/

/-- A forest in the making: leaves from `lo` on and mergers before `node` have been taken, `half` of them under a merger
that is not yet counted; `taken` is what those count. -/
structure Forest.Grown (r : Ranking) (used total : Nat) (f : Forest) (lo node half taken : Nat) : Prop where
  leaf_size : f.leafParent.size = used
  node_size : f.nodeParent.size = node
  lo_lt : lo + 1 < used
  node_le : node ≤ f.merged.size
  leaf_le : ∀ i, lo ≤ i → i < used → f.leafParent.getD i 0 ≤ f.merged.size
  leaf_anti : ∀ i j, lo ≤ i → i ≤ j → j < used → f.leafParent.getD j 0 ≤ f.leafParent.getD i 0
  leaf_last : f.leafParent.getD (used - 1) 0 = 0
  node_le' : ∀ k < node, f.nodeParent.getD k 0 ≤ f.merged.size
  node_mono : ∀ k l, k ≤ l → l < node → f.nodeParent.getD k 0 ≤ f.nodeParent.getD l 0
  node_lt : ∀ k < node, k < f.nodeParent.getD k 0
  children : ∀ F : Nat → Nat, ∑ i ∈ Ico lo used, F (f.leafParent.getD i 0) + ∑ k ∈ range node, F (f.nodeParent.getD k 0) =
    2 * ∑ p ∈ range f.merged.size, F p + half * F f.merged.size
  mass : ∑ i ∈ range lo, r.count i + ∑ k ∈ Ico node f.merged.size, f.merged.getD k 0 + taken = total

variable {r : Ranking} {used total : Nat} {f : Forest} {lo node half taken : Nat}

namespace Forest.Grown

/-- What is left to take, by counting children. -/
theorem count_eq (h : f.Grown r used total lo node half taken) : used + node = lo + 2 * f.merged.size + half := by
  have := h.children fun _ => 1
  simp at this
  have := h.lo_lt
  omega

/-- Between mergers, all children belong to mergers that are counted. -/
theorem parent_lt (h : f.Grown r used total lo node 0 taken) :
    (∀ i, lo ≤ i → i < used → f.leafParent.getD i 0 < f.merged.size) ∧ ∀ k < node, f.nodeParent.getD k 0 < f.merged.size := by
  have hnone := h.children fun p => if p = f.merged.size then 1 else 0
  have hzero : ∑ p ∈ range f.merged.size, (if p = f.merged.size then 1 else 0) = 0 :=
    sum_eq_zero fun p hp => if_neg (by have := mem_range.1 hp; omega)
  rw [hzero, zero_mul, mul_zero, add_zero, Nat.add_eq_zero_iff, sum_eq_zero_iff, sum_eq_zero_iff] at hnone
  refine ⟨fun i h1 h2 => lt_of_le_of_ne (h.leaf_le i h1 h2) fun heq => ?_, fun k hk =>
    lt_of_le_of_ne (h.node_le' k hk) fun heq => ?_⟩
  · have := hnone.1 i (mem_Ico.2 ⟨h1, h2⟩)
    rw [if_pos heq] at this
    omega
  · have := hnone.2 k (mem_range.2 hk)
    rw [if_pos heq] at this
    omega

theorem leaf (h : f.Grown r used total (lo + 1) node half taken) :
    { f with leafParent := f.leafParent.setIfInBounds lo f.merged.size }.Grown r used total lo node (half + 1) (taken + r.count lo) := by
  have hself : (f.leafParent.setIfInBounds lo f.merged.size).getD lo 0 = f.merged.size :=
    Fse.getD_set_self _ _ _ (by have := h.lo_lt; have := h.leaf_size; omega)
  have hne : ∀ i, i ≠ lo → (f.leafParent.setIfInBounds lo f.merged.size).getD i 0 = f.leafParent.getD i 0 :=
    fun i hi => Fse.getD_set_ne _ _ _ hi
  have hlo := h.lo_lt
  refine ⟨by simpa using h.leaf_size, h.node_size, by omega, h.node_le, fun i h1 h2 => ?_, fun i j h1 h2 h3 => ?_, ?_, h.node_le',
    h.node_mono, h.node_lt, fun F => ?_, ?_⟩
  · dsimp only
    rcases eq_or_lt_of_le h1 with rfl | h1
    · rw [hself]
    · rw [hne i (by omega)]
      exact h.leaf_le i h1 h2
  · dsimp only
    rcases eq_or_lt_of_le h1 with rfl | h1
    · rw [hself]
      rcases eq_or_lt_of_le h2 with rfl | h2
      · rw [hself]
      · rw [hne j (by omega)]
        exact h.leaf_le j h2 h3
    · rw [hne i (by omega), hne j (by omega)]
      exact h.leaf_anti i j h1 h2 h3
  · dsimp only
    rw [hne _ (by omega)]
    exact h.leaf_last
  · have hrest : ∑ i ∈ Ico (lo + 1) used, F ((f.leafParent.setIfInBounds lo f.merged.size).getD i 0) =
        ∑ i ∈ Ico (lo + 1) used, F (f.leafParent.getD i 0) :=
      sum_congr rfl fun i hi => by rw [hne i (by have := mem_Ico.1 hi; omega)]
    have := h.children F
    dsimp only
    rw [sum_eq_sum_Ico_succ_bot (by omega), hself, hrest, add_mul, one_mul]
    omega
  · have := h.mass
    rw [sum_range_succ] at this
    dsimp only
    omega

theorem merger (h : f.Grown r used total lo node half taken) (hlt : node < f.merged.size) :
    { f with nodeParent := f.nodeParent.push f.merged.size }.Grown r used total lo (node + 1) (half + 1)
      (taken + f.merged.getD node 0) := by
  have hself : (f.nodeParent.push f.merged.size).getD node 0 = f.merged.size := Fse.getD_push_self _ _ _ h.node_size
  have hbefore : ∀ k < node, (f.nodeParent.push f.merged.size).getD k 0 = f.nodeParent.getD k 0 :=
    fun k hk => Fse.getD_push_lt _ _ _ h.node_size hk
  refine ⟨h.leaf_size, by rw [Array.size_push, h.node_size], h.lo_lt, hlt, h.leaf_le, h.leaf_anti, h.leaf_last, fun k hk => ?_,
    fun k l h1 h2 => ?_, fun k hk => ?_, fun F => ?_, ?_⟩
  · dsimp only
    rcases lt_or_eq_of_le (Nat.le_of_lt_succ hk) with hk | rfl
    · rw [hbefore k hk]
      exact h.node_le' k hk
    · rw [hself]
  · dsimp only
    rcases lt_or_eq_of_le (Nat.le_of_lt_succ h2) with h2 | rfl
    · rw [hbefore k (by omega), hbefore l h2]
      exact h.node_mono k l h1 h2
    · rw [hself]
      rcases lt_or_eq_of_le h1 with h1 | rfl
      · rw [hbefore k h1]
        exact h.node_le' k h1
      · rw [hself]
  · dsimp only
    rcases lt_or_eq_of_le (Nat.le_of_lt_succ hk) with hk | rfl
    · rw [hbefore k hk]
      exact h.node_lt k hk
    · rw [hself]
      exact hlt
  · have hrest : ∑ k ∈ range node, F ((f.nodeParent.push f.merged.size).getD k 0) = ∑ k ∈ range node, F (f.nodeParent.getD k 0) :=
      sum_congr rfl fun k hk => by rw [hbefore k (mem_range.1 hk)]
    have := h.children F
    dsimp only
    rw [sum_range_succ, hself, hrest, add_mul, one_mul]
    omega
  · have := h.mass
    rw [sum_eq_sum_Ico_succ_bot hlt] at this
    dsimp only
    omega

/-- Taking the rarest takes a leaf or a merger, as long as there is one. -/
theorem take (h : f.Grown r used total lo node half taken) (htotal : total < 2 ^ 30) (hrest : lo ≠ 0 ∨ node < f.merged.size) :
    ∃ f' c lo' node', takeRarest r f f.merged.size lo node = (f', c, lo', node') ∧ f'.merged = f.merged ∧
      f'.Grown r used total lo' node' (half + 1) (taken + c) := by
  have hmass := h.mass
  have hnode : node < f.merged.size → f.merged.getD node 0 < 2 ^ 30 ∧ f.merged.getD node (2 ^ 30) = f.merged.getD node 0 := fun hlt => by
    have := single_le_sum (f := fun k => f.merged.getD k 0) (fun _ _ => Nat.zero_le _) (mem_Ico.2 ⟨Nat.le_refl node, hlt⟩)
    exact ⟨by omega, by simp [Array.getD_eq_getD_getElem?, hlt]⟩
  unfold takeRarest
  dsimp only
  rcases lo with _ | lo
  · have hlt := hrest.resolve_left (by omega)
    obtain ⟨h1, h2⟩ := hnode hlt
    rw [if_pos rfl, h2, if_neg (by omega)]
    exact ⟨_, _, _, _, rfl, rfl, h.merger hlt⟩
  · rw [if_neg (show ¬lo + 1 = 0 by omega), Nat.add_sub_cancel]
    split
    · exact ⟨_, _, _, _, rfl, rfl, h.leaf⟩
    · rename_i hle
      have hlt : node < f.merged.size := by
        by_contra hge
        have hnone : f.merged.getD node (2 ^ 30) = 2 ^ 30 := by simp [Array.getD_eq_getD_getElem?, Nat.le_of_not_lt hge]
        rw [sum_range_succ] at hmass
        omega
      rw [(hnode hlt).2]
      exact ⟨_, _, _, _, rfl, rfl, h.merger hlt⟩

theorem close (h : f.Grown r used total lo node 2 taken) :
    { f with merged := f.merged.push taken }.Grown r used total lo node 0 0 := by
  refine ⟨h.leaf_size, h.node_size, h.lo_lt, ?_, fun i h1 h2 => ?_, h.leaf_anti, h.leaf_last, fun k hk => ?_, h.node_mono, h.node_lt,
    fun F => ?_, ?_⟩
  · rw [Array.size_push]
    exact Nat.le_succ_of_le h.node_le
  · rw [Array.size_push]
    exact Nat.le_succ_of_le (h.leaf_le i h1 h2)
  · rw [Array.size_push]
    exact Nat.le_succ_of_le (h.node_le' k hk)
  · have := h.children F
    dsimp only
    rw [Array.size_push, sum_range_succ]
    omega
  · have hlast : (f.merged.push taken).getD f.merged.size 0 = taken := Fse.getD_push_self _ _ _ rfl
    have hrest : ∑ k ∈ Ico node f.merged.size, (f.merged.push taken).getD k 0 = ∑ k ∈ Ico node f.merged.size, f.merged.getD k 0 :=
      sum_congr rfl fun k hk => Fse.getD_push_lt _ _ _ rfl (mem_Ico.1 hk).2
    have := h.mass
    rw [Array.size_push, sum_Ico_succ_top h.node_le, hlast, hrest]
    omega

theorem mergeAll (h : f.Grown r used total lo node 0 0) (htotal : total < 2 ^ 30)
    (hn : f.merged.size + n + 1 = used) (hlt : node < f.merged.size) :
    ∃ node', (Huffman.mergeAll r f lo node n).Grown r used total 0 node' 0 0 ∧ (Huffman.mergeAll r f lo node n).merged.size = node' + 1 ∧
      node' + 2 = used := by
  induction n generalizing f lo node with
  | zero =>
    have := h.count_eq
    have h0 : lo = 0 := by omega
    subst h0
    exact ⟨node, h, show f.merged.size = node + 1 by omega, by omega⟩
  | succ n ih =>
    obtain ⟨f1, a, lo1, node1, he1, hm1, h1⟩ := h.take htotal (by omega)
    have hc1 := h1.count_eq
    rw [hm1] at hc1
    obtain ⟨f2, b, lo2, node2, he2, hm2, h2⟩ := h1.take htotal (by rw [hm1]; omega)
    rw [Huffman.mergeAll]
    rw [he1]
    dsimp only
    rw [← hm1, he2]
    dsimp only
    simp only [zero_add] at h2
    have h3 := h2.close
    have hnode := h2.node_le
    refine ih h3 ?_ ?_
    · rw [Array.size_push, hm2, hm1]
      omega
    · rw [Array.size_push]
      omega

end Forest.Grown

/-! ### Depths -/

theorem nodeDepths_spec (parents : Array Nat) (n : Nat) (h : ∀ k, k + 1 < n → k < parents.getD k 0) :
    (nodeDepths parents n).getD (n - 1) 0 = 0 ∧
      ∀ k, k + 1 < n → (nodeDepths parents n).getD k 0 = (nodeDepths parents n).getD (parents.getD k 0) 0 + 1 := by
  have hfold := Fse.foldl_range (fun i (d : Array Nat) => d.size = n ∧ d.getD (n - 1) 0 = 0 ∧
      ∀ k, n ≤ k + i → k + 1 < n → d.getD k 0 = d.getD (parents.getD k 0) 0 + 1)
    (fun (d : Array Nat) i =>
      let k := n - 1 - i
      if k + 1 = n then d
      else d.setIfInBounds k (d.getD (parents.getD k 0) 0 + 1))
    (Array.replicate n 0) n ⟨by simp, ?_, fun k h1 h2 => by omega⟩ ?_
  · exact ⟨hfold.2.1, fun k hk => hfold.2.2 k (by omega) hk⟩
  · by_cases hn : n - 1 < n <;> simp [Array.getD_eq_getD_getElem?, hn]
  · rintro i d hi ⟨h1, h2, h3⟩
    dsimp only
    split
    · exact ⟨h1, h2, fun k hk hk' => h3 k (by omega) hk'⟩
    · refine ⟨by simpa using h1, ?_, fun k hk hk' => ?_⟩
      · rw [Fse.getD_set_ne _ _ _ (by omega)]
        exact h2
      · -- the parent stands behind, so its depth is known already and stays
        have hp := h k hk'
        rw [Fse.getD_set_ne _ _ _ (show parents.getD k 0 ≠ n - 1 - i by omega)]
        by_cases hki : k = n - 1 - i
        · rw [← hki, Fse.getD_set_self _ _ _ (by omega)]
        · rw [Fse.getD_set_ne _ _ _ hki]
          exact h3 k (by omega) hk'

/-- Depths that rise along the ranking and fill the code space. -/
structure Depths (d : Array Nat) : Prop where
  pos : ∀ i < d.size, 0 < d.getD i 0
  mono : ∀ i j, i ≤ j → j < d.size → d.getD i 0 ≤ d.getD j 0
  kraft : ∀ n, d.getD (d.size - 1) 0 ≤ n → ∑ i ∈ range d.size, 2 ^ (n - d.getD i 0) = 2 ^ n

theorem nodeDepths_anti (hlt : ∀ k, k + 1 < n → k < parents.getD k 0)
    (hle : ∀ k, k + 1 < n → parents.getD k 0 < n) (hmono : ∀ k l, k ≤ l → l + 1 < n → parents.getD k 0 ≤ parents.getD l 0)
    (p q : Nat) (hpq : p ≤ q) (hq : q < n) : (nodeDepths parents n).getD q 0 ≤ (nodeDepths parents n).getD p 0 := by
  obtain ⟨hroot, hstep⟩ := nodeDepths_spec parents n hlt
  induction hm : n - q using Nat.strong_induction_on generalizing p q with
  | _ m ih =>
    rcases lt_or_ge (q + 1) n with hlast | hlast
    · rw [hstep q hlast, hstep p (by omega)]
      have hq' := hlt q hlast
      have := ih (n - parents.getD q 0) (by omega) (parents.getD p 0) (parents.getD q 0) (hmono p q hpq hlast) (hle q hlast) rfl
      omega
    · rw [show q = n - 1 by omega, hroot]
      exact Nat.zero_le _

/-- The first merger joins the two rarest symbols. -/
theorem grown_first (r : Ranking) (h : 2 ≤ used) :
    Forest.Grown r used (∑ i ∈ range used, r.count i)
      { merged := #[r.count (used - 1) + r.count (used - 2)], leafParent := Array.replicate used 0, nodeParent := #[] }
      (used - 2) 0 0 0 := by
  have hzero : ∀ i, (Array.replicate used 0).getD i 0 = 0 := fun i => by
    by_cases hi : i < used <;> simp [Array.getD_eq_getD_getElem?, hi]
  obtain ⟨n, rfl⟩ : ∃ n, used = n + 2 := ⟨used - 2, by omega⟩
  refine ⟨by simp, rfl, by omega, by simp, fun i _ _ => ?_, fun i j _ _ _ => ?_, hzero _, nofun, nofun, nofun, fun F => ?_, ?_⟩
  · rw [hzero]
    exact Nat.zero_le _
  · rw [hzero, hzero]
  · simp only [hzero, sum_const, Nat.card_Ico]
    simp
  · simp [sum_range_succ]
    omega

theorem depths_spec (r : Ranking) (used : Nat) (h : 2 ≤ used) (htotal : ∑ i ∈ range used, r.count i < 2 ^ 30) :
    (depths r used).size = used ∧ Depths (depths r used) := by
  obtain ⟨node, hg, hsize, hused⟩ := (grown_first r h).mergeAll (n := used - 2) htotal (by simp; omega) (by simp)
  unfold depths
  dsimp only
  generalize mergeAll r _ (used - 2) 0 (used - 2) = f at hg hsize ⊢
  obtain ⟨hroot, hstep⟩ := nodeDepths_spec f.nodeParent f.merged.size fun k hk => hg.node_lt k (by omega)
  obtain ⟨hleaf, hin⟩ := hg.parent_lt
  have hanti := nodeDepths_anti (fun k hk => hg.node_lt k (by omega)) (fun k hk => hin k (by omega))
    fun k l h1 h2 => hg.node_mono k l h1 (by omega)
  generalize nodeDepths f.nodeParent f.merged.size = nd at hroot hstep hanti ⊢
  have hget : ∀ i < used, (f.leafParent.map fun p => nd.getD p 0 + 1).getD i 0 = nd.getD (f.leafParent.getD i 0) 0 + 1 := fun i hi => by
    have hi' : i < f.leafParent.size := by rw [hg.leaf_size]; exact hi
    simp [Array.getD_eq_getD_getElem?, hi']
  have hlen : (f.leafParent.map fun p => nd.getD p 0 + 1).size = used := by rw [Array.size_map, hg.leaf_size]
  generalize f.leafParent.map (fun p => nd.getD p 0 + 1) = d at hget hlen
  refine ⟨hlen, fun i hi => ?_, fun i j h1 h2 => ?_, fun n hn => ?_⟩
  · rw [hget i (by omega)]
    exact Nat.succ_pos _
  · rw [hget i (by omega), hget j (by omega)]
    exact Nat.succ_le_succ (hanti _ _ (hg.leaf_anti i j (Nat.zero_le i) h1 (by omega)) (hleaf i (Nat.zero_le i) (by omega)))
  · rw [hlen, hget _ (by omega), hg.leaf_last] at hn
    rw [hlen]
    -- twice the children's space is the parents' space, and the root has all of it
    have hspace := hg.children fun p => 2 ^ (n - (nd.getD p 0 + 1))
    have hdouble : 2 * ∑ p ∈ range f.merged.size, 2 ^ (n - (nd.getD p 0 + 1)) = ∑ p ∈ range f.merged.size, 2 ^ (n - nd.getD p 0) := by
      rw [mul_sum]
      refine sum_congr rfl fun p hp => ?_
      have := hanti 0 p (Nat.zero_le p) (mem_range.1 hp)
      rw [← Nat.pow_succ', show (n - (nd.getD p 0 + 1)).succ = n - nd.getD p 0 by omega]
    have hnodes : ∑ k ∈ range node, 2 ^ (n - (nd.getD (f.nodeParent.getD k 0) 0 + 1)) = ∑ k ∈ range node, 2 ^ (n - nd.getD k 0) :=
      sum_congr rfl fun k hk => by rw [hstep k (by have := mem_range.1 hk; omega)]
    have hleaves : ∑ i ∈ Ico 0 used, 2 ^ (n - (nd.getD (f.leafParent.getD i 0) 0 + 1)) = ∑ i ∈ range used, 2 ^ (n - d.getD i 0) := by
      rw [range_eq_Ico]
      exact sum_congr rfl fun i hi => by rw [hget i (mem_Ico.1 hi).2]
    rw [hsize, Nat.add_sub_cancel] at hroot
    rw [hdouble, hnodes, hleaves, hsize, sum_range_succ, hroot, Nat.sub_zero, zero_mul, add_zero] at hspace
    omega

end ZstCodec.Huffman
