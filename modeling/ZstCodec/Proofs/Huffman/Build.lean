import ZstCodec.Proofs.Huffman.Canonical

/-! # Building a code

The code built for a histogram gives a width to exactly the symbols that occur, and its weights fill the code space. -/

namespace ZstCodec.Huffman

open Finset WeightTable

variable {counts d widths : Array Nat} {h : Histogram} {back front : List Leaf} {l : List Nat} {log n : Nat}

/-! ### The symbols that occur -/

theorem length_filter_range (n : Nat) (p : Nat → Prop) [DecidablePred p] :
    ((List.range n).filter p).length = ∑ s ∈ range n, if p s then 1 else 0 := by
  induction n with
  | zero => rfl
  | succ n ih =>
    grind [List.range_succ, sum_range_succ]

/-- The ranking starts with the symbols that occur. -/
structure Front (counts : Array Nat) (front back : List Leaf) : Prop where
  rank : (rank counts).toList = front ++ back
  perm : (front.map Leaf.symbol ++ back.map Leaf.symbol).Perm (List.range counts.size)
  count : ∀ leaf ∈ front ++ back, leaf.count = counts.getD leaf.symbol 0
  mem : ∀ s, s ∈ front.map Leaf.symbol ↔ counts.getD s 0 ≠ 0
  length : front.length = Fse.occurring counts

theorem exists_front (counts : Array Nat) (h : ∀ s, counts.getD s 0 < 2 ^ 31) : ∃ front back, Front counts front back := by
  obtain ⟨hperm, front, back, hrank, hfront, hback⟩ := rank_spec counts h
  have hcount : ∀ leaf ∈ front ++ back, leaf.count = counts.getD leaf.symbol 0 ∧ leaf.symbol < counts.size := fun leaf hleaf => by
    rw [← hrank, hperm.mem_iff] at hleaf
    obtain ⟨s, hs, rfl⟩ := List.mem_map.1 hleaf
    exact ⟨rfl, List.mem_range.1 hs⟩
  have hsyms : (front.map Leaf.symbol ++ back.map Leaf.symbol).Perm (List.range counts.size) := by
    rw [← List.map_append, ← hrank]
    refine (hperm.map Leaf.symbol).trans ?_
    rw [leaves, List.map_map]
    refine List.Perm.of_eq ((List.map_congr_left fun s _ => rfl).trans (List.map_id _))
  have hmem : ∀ s, s ∈ front.map Leaf.symbol ↔ counts.getD s 0 ≠ 0 := fun s => by
    refine ⟨fun hs => ?_, fun hs => ?_⟩
    · grind
    · have hlt : s < counts.size := by
        by_contra hge
        refine hs ?_
        simp [Array.getD_eq_getD_getElem?, Nat.le_of_not_lt hge]
      rcases List.mem_append.1 (hsyms.mem_iff.2 (List.mem_range.2 hlt)) with hin | hin
      · exact hin
      grind
  refine ⟨front, back, hrank, hsyms, fun leaf hleaf => (hcount leaf hleaf).1, hmem, ?_⟩
  have hnodup : (front.map Leaf.symbol).Nodup := (List.nodup_append.1 (hsyms.nodup_iff.2 List.nodup_range)).1
  have hsame : (front.map Leaf.symbol).Perm ((List.range counts.size).filter fun s => counts.getD s 0 ≠ 0) := by
    refine (List.perm_ext_iff_of_nodup hnodup (List.nodup_range.filter _)).2 fun s => ?_
    rw [hmem, List.mem_filter, List.mem_range, decide_eq_true_eq]
    refine ⟨fun hs => ⟨?_, hs⟩, fun hs => hs.2⟩
    by_contra hge
    refine hs ?_
    simp [Array.getD_eq_getD_getElem?, Nat.le_of_not_lt hge]
  have hlen := hsame.length_eq
  rw [List.length_map, length_filter_range] at hlen
  rw [hlen, Fse.occurring]
  simp

/-! ### Widths -/

theorem foldl_enter {r : Ranking} (hr : r.toList = front ++ back) (hd : d.size = front.length)
    (t : Array Nat) :
    (List.range front.length).foldl (fun (a : Array Nat) i => a.setIfInBounds (r.getD i default).symbol (d.getD i 0)) t =
      Fse.enter t (front.map Leaf.symbol) d.toList := by
  have hfold := Fse.foldl_range
    (fun k (a : Array Nat) => a = Fse.enter t ((front.map Leaf.symbol).take k) (d.toList.take k))
    (fun (a : Array Nat) i => a.setIfInBounds (r.getD i default).symbol (d.getD i 0)) t front.length (by simp) ?_
  · simp_all [List.take_of_length_le]
  · rintro k a hk rfl
    have hleaf : r.getD k default = front[k] := by
      rw [Array.getD_eq_getD_getElem?, ← Array.getElem?_toList, hr, List.getElem?_append_left hk, List.getElem?_eq_getElem hk]
      rfl
    simp_all [List.take_add_one, Fse.enter_append, Fse.enter]

/-- Each symbol that occurs gets the depth of its place in the ranking. -/
theorem widths_spec (h : Front counts front back)
    (hd : d.size = front.length) (hpos : ∀ i < d.size, 0 < d.getD i 0) :
    let widths := (List.range front.length).foldl
      (fun (a : Array Nat) i => a.setIfInBounds ((rank counts).getD i default).symbol (d.getD i 0)) (Array.replicate counts.size 0)
    widths.size = counts.size ∧ widths.toList.Perm (d.toList ++ List.replicate back.length 0) ∧
      ∀ s, widths.getD s 0 ≠ 0 ↔ counts.getD s 0 ≠ 0 := by
  intro widths
  have hw : widths = Fse.enter (Array.replicate counts.size 0) (front.map Leaf.symbol) d.toList := foldl_enter h.rank hd _
  have hsize : widths.size = counts.size := by rw [hw, Fse.size_enter, Array.size_replicate]
  obtain ⟨hnodup, -, hdisj⟩ := List.nodup_append.1 (h.perm.nodup_iff.2 List.nodup_range)
  have hfront : (front.map Leaf.symbol).map (fun s => widths.getD s 0) = d.toList := by
    rw [hw]
    refine Fse.map_getD_enter _ hnodup (fun s hs => ?_) (by simp [hd])
    rw [Array.size_replicate]
    exact List.mem_range.1 (h.perm.mem_iff.1 (List.mem_append_left _ hs))
  have hother : ∀ s, s ∉ front.map Leaf.symbol → widths.getD s 0 = 0 := fun s hs => by
    rw [hw, Fse.getD_enter_of_not_mem hs]
    by_cases hlt : s < counts.size <;> simp [Array.getD_eq_getD_getElem?, hlt]
  refine ⟨hsize, ?_, fun s => ?_⟩
  · rw [Fse.toList_eq_map_getD widths 0, hsize]
    refine (h.perm.map fun s => widths.getD s 0).symm.trans ?_
    rw [List.map_append, hfront]
    refine List.Perm.of_eq (congrArg (d.toList ++ ·) (List.eq_replicate_iff.2 ⟨by simp, fun w hin => ?_⟩))
    grind
  · rw [← h.mem s]
    refine ⟨fun hs => ?_, fun hs => ?_⟩
    · grind
    · have hin : widths.getD s 0 ∈ d.toList := by
        rw [← hfront]
        exact List.mem_map.2 ⟨s, hs, rfl⟩
      obtain ⟨i, hi, heq⟩ := List.getElem_of_mem hin
      have := hpos i (by simpa using hi)
      rw [← heq]
      simp [Array.getD_eq_getD_getElem?, show i < d.size by simpa using hi] at this ⊢
      omega

/-! ### The code -/

def tableOf (log : Nat) (widths : Array Nat) : WeightTable :=
  { weights := widths.map fun w => if w = 0 then 0 else log + 1 - w, log }

theorem code_tableOf (h : ∀ w ∈ widths, w ≤ log) : (tableOf log widths).code = Code.ofWidths log widths := by
  unfold code tableOf
  congr 1
  rw [Array.map_map]
  refine (Array.map_congr_left fun w hw => ?_).trans (Array.map_id _)
  grind

theorem weight_tableOf (log : Nat) (widths : Array Nat) (s : Nat) :
    (tableOf log widths).weight s = if widths.getD s 0 = 0 then 0 else log + 1 - widths.getD s 0 := by
  rw [weight, tableOf]
  rcases lt_or_ge s widths.size with hs | hs
  · simp [Array.getD_eq_getD_getElem?, hs]
  simp_all

theorem weight_tableOf_ne_zero (hle : ∀ w ∈ widths, w ≤ log) (s : Nat) :
    (tableOf log widths).weight s ≠ 0 ↔ widths.getD s 0 ≠ 0 := by
  rw [weight_tableOf]
  rcases lt_or_ge s widths.size with hs | hs
  · have hw := hle widths[s] (Array.getElem_mem hs)
    rw [show widths.getD s 0 = widths[s] by simp [Array.getD_eq_getD_getElem?, hs]]
    grind
  simp_all

/-- The sum over the weights is one over the depths. -/
theorem sum_room_tableOf (hperm : widths.toList.Perm (d.toList ++ List.replicate n 0))
    (hpos : ∀ i < d.size, 0 < d.getD i 0) (hle : ∀ i < d.size, d.getD i 0 ≤ log) :
    ∑ s ∈ range (tableOf log widths).weights.size, room ((tableOf log widths).weight s) =
      ∑ i ∈ range d.size, 2 ^ (log - d.getD i 0) := by
  have hsum := (hperm.map fun w => room (if w = 0 then 0 else log + 1 - w)).sum_eq
  rw [Fse.toList_eq_map_getD widths 0, Fse.toList_eq_map_getD d 0, List.map_append, List.sum_append, List.map_map, List.map_map,
    List.map_replicate, if_pos rfl, Fse.sum_range_eq, Fse.sum_range_eq] at hsum
  have hzero : (List.replicate n (room 0)).sum = 0 := by simp [room]
  rw [hzero, add_zero] at hsum
  rw [show (tableOf log widths).weights.size = widths.size from Array.size_map]
  calc ∑ s ∈ range widths.size, room ((tableOf log widths).weight s)
      = ∑ s ∈ range widths.size, room (if widths.getD s 0 = 0 then 0 else log + 1 - widths.getD s 0) :=
        sum_congr rfl fun s _ => by rw [weight_tableOf]
    _ = ∑ i ∈ range d.size, room (if d.getD i 0 = 0 then 0 else log + 1 - d.getD i 0) := hsum
    _ = ∑ i ∈ range d.size, 2 ^ (log - d.getD i 0) := sum_congr rfl fun i hi => by
        have h1 := hpos i (mem_range.1 hi)
        have h2 := hle i (mem_range.1 hi)
        rw [if_neg (by omega), room, if_neg (by omega), show log + 1 - d.getD i 0 - 1 = log - d.getD i 0 by omega]

theorem full_tableOf (hperm : widths.toList.Perm (d.toList ++ List.replicate n 0))
    (hd : Fitted d log) (hlog : log ≤ widthLimit) (hsize : widths.size ≤ 256) :
    (tableOf log widths).Full ∧ (∀ w ∈ widths, w ≤ log) ∧ ∃ s, (tableOf log widths).weight s = 1 := by
  obtain ⟨i, hi, hlongest⟩ := hd.longest
  have hpos := hd.pos i hi
  have hle : ∀ w ∈ widths, w ≤ log := fun w hw => by
    rcases List.mem_append.1 (hperm.mem_iff.1 (Array.mem_toList_iff.2 hw)) with hin | hin
    · obtain ⟨j, hj, rfl⟩ := List.getElem_of_mem hin
      have := hd.le j (by simpa using hj)
      simpa [Array.getD_eq_getD_getElem?, show j < d.size by simpa using hj] using this
    simp_all
  have hcount : (tableOf log widths).weights.size ≤ 256 := by
    rw [show (tableOf log widths).weights.size = widths.size from Array.size_map]
    exact hsize
  refine ⟨⟨show 0 < log by omega, hlog, fun s => ?_, hcount, (sum_room_tableOf hperm hd.pos hd.le).trans hd.kraft⟩, hle, ?_⟩
  · rw [weight_tableOf]
    show _ ≤ log
    grind
  · have hin : log ∈ widths.toList := by
      rw [hperm.mem_iff, ← hlongest, show d.getD i 0 = d[i] by simp [Array.getD_eq_getD_getElem?, hi]]
      exact List.mem_append_left _ (by simp)
    obtain ⟨s, hs, heq⟩ := List.getElem_of_mem hin
    refine ⟨s, ?_⟩
    have hw : widths.getD s 0 = log := by
      rw [← heq]
      simp [Array.getD_eq_getD_getElem?, show s < widths.size by simpa using hs]
    rw [weight_tableOf, hw, if_neg (by omega)]
    omega

/-- The ranked counts of the symbols that occur. -/
theorem sum_front (h : Front counts front back) :
    ∑ i ∈ range front.length, (rank counts).count i ≤ ∑ s ∈ range counts.size, counts.getD s 0 := by
  have hcounts : (front ++ back).map Leaf.count = (front.map Leaf.symbol ++ back.map Leaf.symbol).map fun s => counts.getD s 0 := by
    rw [← List.map_append, List.map_map]
    exact List.map_congr_left fun leaf hleaf => h.count leaf hleaf
  have hsum := (h.perm.map fun s => counts.getD s 0).sum_eq
  rw [← hcounts, Fse.sum_range_eq, List.map_append, List.sum_append] at hsum
  rw [← hsum]
  refine le_trans (le_of_eq ?_) (Nat.le_add_right _ _)
  have hfront : front.map Leaf.count = (List.range front.length).map fun i => (rank counts).count i := by
    refine List.ext_getElem (by simp) fun i h1 h2 => ?_
    have hi : i < front.length := by simpa using h1
    rw [List.getElem_map, List.getElem_map, List.getElem_range, Ranking.count, Array.getD_eq_getD_getElem?, ← Array.getElem?_toList,
      h.rank, List.getElem?_append_left hi, List.getElem?_eq_getElem hi]
    rfl
  rw [hfront, Fse.sum_range_eq]

/-- A histogram whose largest count is not all there is has at least two symbols. -/
theorem two_le_front (hof : h.Of l) (hne : h.largest ≠ l.length)
    (hf : Front h.counts front back) : 2 ≤ front.length := by
  have hl : l ≠ [] := by
    rintro rfl
    obtain ⟨s, hs⟩ := hof.largest
    exact hne hs
  obtain ⟨v, hv⟩ := List.exists_mem_of_ne_nil l hl
  obtain ⟨u, hu, huv⟩ : ∃ u ∈ l, v ≠ u := by
    by_contra hall
    refine ne_of_lt (hof.count_lt hne v) (List.count_eq_length.2 fun u hu => ?_)
    grind
  have hmem : ∀ s ∈ l, s ∈ front.map Leaf.symbol := fun s hs => by
    rw [hf.mem, hof.count s]
    grind
  have hsub : [v, u] ⊆ front.map Leaf.symbol := by
    simp only [List.cons_subset, List.nil_subset, and_true]
    exact ⟨hmem v hv, hmem u hu⟩
  have hpair : [v, u].Nodup := by simp [huv]
  simpa using (hpair.subperm hsub).length_le

theorem build_spec (hof : h.Of l) (hlen : l.length < 2 ^ 30) (hne : h.largest ≠ l.length)
    (hlimit : 2 ≤ limit) (hlimit' : limit ≤ widthLimit) (hroom : h.distinct ≤ 2 ^ limit) :
    ∃ t : WeightTable, t.Full ∧ build h limit = t.code ∧ t.log ≤ limit ∧ t.weights.size = h.counts.size ∧
      (∀ s, t.weight s ≠ 0 ↔ s ∈ l) ∧ ∃ s, t.weight s = 1 := by
  have hcount : ∀ s, h.counts.getD s 0 < 2 ^ 31 := fun s => by
    have : l.count s ≤ l.length := List.count_le_length
    rw [hof.count s]
    omega
  obtain ⟨front, back, hf⟩ := exists_front h.counts hcount
  have hused : h.distinct = front.length := by rw [Histogram.Of.distinct_eq, hf.length]
  have htwo := two_le_front hof hne hf
  have hfew : front.length ≤ 256 := by
    rw [hf.length]
    exact le_trans (Fse.occurring_le_size _) hof.le
  have htotal := sum_front hf
  rw [hof.sum] at htotal
  obtain ⟨hsize, hdepths⟩ := depths_spec (rank h.counts) front.length htwo (by omega)
  obtain ⟨d, log, hlim, hdsize, hlog, hfit⟩ := limitDepth_spec (rank h.counts) hdepths (by omega) (by omega) hlimit hlimit'
    (by rw [hsize, ← hused]; exact hroom)
  obtain ⟨hwsize, hperm, hwidth⟩ := widths_spec hf (hdsize.trans hsize) hfit.pos
  obtain ⟨hfull, hle, hone⟩ := full_tableOf hperm hfit (by omega) (by rw [hwsize]; exact hof.le)
  refine ⟨tableOf log _, hfull, ?_, hlog, (Array.size_map).trans hwsize, fun s => ?_, hone⟩
  · rw [code_tableOf hle]
    unfold build
    dsimp only
    rw [hused, hlim]
  · rw [weight_tableOf_ne_zero hle, hwidth s, hof.count s, ← List.count_pos_iff]
    omega

end ZstCodec.Huffman
