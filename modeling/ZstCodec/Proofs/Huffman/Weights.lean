import ZstCodec.Proofs.Fault
import ZstCodec.Proofs.Fse.Stream
import ZstCodec.Proofs.Huffman.Build

/-! # The written form of a code

A code is read as it was written. The weight that is left out is what the others leave of the code space, and the largest width
shows in their sum. -/

namespace ZstCodec.Huffman

open Finset

variable {a ws : Array Nat} {b : ByteArray} {limit n : Nat}

namespace WeightTable

variable {t : WeightTable}

/-! ### The weight that is left out -/

theorem Full.one_lt_size (h : t.Full) : 1 < t.weights.size := by
  have hsum := h.sum
  by_contra hle
  rcases Nat.eq_zero_or_pos t.weights.size with h0 | h0
  · simp_all [ne_of_lt]
  · rw [show t.weights.size = 0 + 1 by omega, sum_range_succ, range_zero, sum_empty, zero_add] at hsum
    have hle := h.le 0
    rw [room] at hsum
    split at hsum
    · grind
    · have := Nat.pow_lt_pow_right (show 1 < 2 by omega) (show t.weight 0 - 1 < t.log by omega)
      omega

theorem getD_pop {α : Type} (a : Array α) (x : α) (h : s < a.size - 1) : a.pop.getD s x = a.getD s x := by
  simp [Array.getD_eq_getD_getElem?, h, show s < a.size by omega]

theorem foldl_add_eq_sum (a : Array Nat) (f : Nat → Nat) : a.foldl (fun n w => n + f w) 0 = ∑ s ∈ range a.size, f (a.getD s 0) := by
  refine Fse.foldl_getD a 0 (fun k n => n = ∑ s ∈ range k, f (a.getD s 0)) _ _ rfl ?_
  rintro k n _ rfl
  rw [sum_range_succ]

/-- The space that the listed weights leave is that of the last one. -/
theorem Full.sum_listed (h : t.Full) :
    ∑ s ∈ range (t.weights.size - 1), room (t.weight s) + room (t.weight (t.weights.size - 1)) = 2 ^ t.log := by
  rw [← h.sum, ← sum_range_succ, show t.weights.size - 1 + 1 = t.weights.size by have := h.one_lt_size; omega]

/-- Symbols of the largest width come in pairs. -/
theorem Full.among_one_even (h : t.Full) : t.among 1 t.weights.size % 2 = 0 := by
  have h1 := h.dvd_below (w := 1) h.log_pos
  rw [below_succ, below_one, zero_add, room_succ, pow_zero, mul_one, Nat.pow_one] at h1
  exact Nat.mod_eq_zero_of_dvd h1

theorem foldl_ones (t : WeightTable) : t.weights.foldl (fun n w => if w = 1 then n + 1 else n) 0 = t.among 1 t.weights.size := by
  refine Fse.foldl_getD t.weights 0 (fun k n => n = t.among 1 k) _ _ rfl ?_
  rintro k n _ rfl
  rw [among_succ]
  show (if t.weight k = 1 then t.among 1 k + 1 else t.among 1 k) = _
  split <;> rfl

theorem any_eq_false (h : ∀ s < a.size, p (a.getD s 0) = false) : a.any p = false := by
  simp_all

theorem push_pop (h : 0 < a.size) : a.pop.push (a.getD (a.size - 1) 0) = a := by
  refine Array.ext (by simp; omega) fun i h1 h2 => ?_
  rw [Array.getElem_push]
  split
  · simp
  · obtain rfl : i = a.size - 1 := by
      simp at *
      omega
    simp [Array.getD_eq_getD_getElem?, h2]

theorem complete_listed (h : t.Full) (hlast : t.weight (t.weights.size - 1) ≠ 0) (hone : ∃ s, t.weight s = 1) :
    complete t.weights.pop = .ok t := by
  have hlt := h.one_lt_size
  have hlisted := h.sum_listed
  have hle := h.le (t.weights.size - 1)
  have hlog := h.log_le
  have hroom : room (t.weight (t.weights.size - 1)) = 2 ^ (t.weight (t.weights.size - 1) - 1) := if_neg hlast
  have htotal : t.weights.pop.foldl (fun n w => n + 2 ^ w / 2) 0 = 2 ^ t.log - 2 ^ (t.weight (t.weights.size - 1) - 1) := by
    rw [foldl_add_eq_sum, Array.size_pop]
    have hcongr : ∑ s ∈ range (t.weights.size - 1), 2 ^ t.weights.pop.getD s 0 / 2 = ∑ s ∈ range (t.weights.size - 1), room (t.weight s) :=
      sum_congr rfl fun s hs => by rw [getD_pop _ _ (mem_range.1 hs), room_eq]; rfl
    omega
  -- the last symbol takes at most half of the space
  have hhalf : 2 ^ (t.weight (t.weights.size - 1) - 1) ≤ 2 ^ (t.log - 1) := Nat.pow_le_pow_right (by omega) (by omega)
  have hdouble : 2 ^ t.log = 2 * 2 ^ (t.log - 1) := by
    rw [← pow_succ']
    congr 1
    omega
  have hpos := Nat.two_pow_pos (t.weight (t.weights.size - 1) - 1)
  have hhigh : highBit (2 ^ t.log - 2 ^ (t.weight (t.weights.size - 1) - 1)) + 1 = t.log := by
    have hbit : Nat.log2 (2 ^ t.log - 2 ^ (t.weight (t.weights.size - 1) - 1)) = t.log - 1 := by
      rw [Nat.log2_eq_iff (by omega), Nat.sub_add_cancel h.log_pos]
      omega
    rw [highBit, hbit]
    omega
  have hrest : 2 ^ t.log - (2 ^ t.log - 2 ^ (t.weight (t.weights.size - 1) - 1)) = 2 ^ (t.weight (t.weights.size - 1) - 1) := by omega
  have hall : t.weights.pop.push (t.weight (t.weights.size - 1)) = t.weights := push_pop (by omega)
  have hsmall : t.weights.pop.any (widthLimit < ·) = false := by
    refine any_eq_false fun s hs => decide_eq_false ?_
    rw [Array.size_pop] at hs
    rw [getD_pop _ _ hs]
    exact not_lt.2 (le_trans (h.le s) hlog)
  have hsome : t.among 1 t.weights.size ≠ 0 := by
    obtain ⟨s, hs⟩ := hone
    have h1 := t.among_mono 1 (lt_of_weight (by omega : t.weight s ≠ 0))
    rw [Nat.succ_eq_add_one, among_succ, if_pos hs] at h1
    omega
  have heven := h.among_one_even
  unfold complete
  rw [hsmall, htotal]
  simp only [bind, Except.bind, Bool.false_eq_true, if_false]
  rw [if_neg (by omega), hhigh, if_neg (by omega), hrest, highBit, Nat.log2_two_pow, if_neg (by omega),
    Nat.sub_add_cancel (pos_of_ne_zero hlast), hall, foldl_ones, if_neg (by omega)]
  rfl

theorem weight_push (ws : Array Nat) (w log s : Nat) :
    weight { weights := ws.push w, log } s = if s < ws.size then ws.getD s 0 else if s = ws.size then w else 0 := by
  show (ws.push w).getD s 0 = _
  rcases lt_trichotomy s ws.size with hs | rfl | hs
  · rw [if_pos hs, Fse.getD_push_lt _ _ _ rfl hs]
  · simp
  grind

theorem full_of_complete (hsize : ws.size ≤ 255) (h : complete ws = .ok t) : t.Full ∧ t.weights.size = ws.size + 1 := by
  unfold complete at h
  split at h
  · exact nomatch h
  rw [foldl_add_eq_sum] at h
  simp only [room_eq] at h
  split at h
  · exact nomatch h
  rename_i hpos
  split at h
  · exact nomatch h
  rename_i hlog
  split at h
  · exact nomatch h
  rename_i hpower
  split at h
  · exact nomatch h
  obtain rfl := Except.ok.inj h
  generalize htotal : ∑ s ∈ range ws.size, room (ws.getD s 0) = total at hpos hlog hpower
  have h1 : 2 ^ highBit total ≤ total := Nat.log2_self_le hpos
  have h2 : total < 2 ^ (highBit total + 1) := Nat.lt_log2_self
  rw [not_not] at hpower
  have hlast : highBit (2 ^ (highBit total + 1) - total) ≤ highBit total := by
    refine (Nat.pow_le_pow_iff_right (show 1 < 2 by omega)).1 ?_
    omega
  have hwithin : ∀ s < ws.size, ws.getD s 0 ≤ highBit total + 1 := fun s hs => by
    have hle := single_le_sum (f := fun s => room (ws.getD s 0)) (fun _ _ => Nat.zero_le _) (mem_range.2 hs)
    rw [htotal] at hle
    generalize ws.getD s 0 = w at hle
    rcases w with _ | w
    · exact Nat.zero_le _
    · have := (Nat.pow_lt_pow_iff_right (show 1 < 2 by omega)).1 (lt_of_le_of_lt hle h2)
      omega
  refine ⟨⟨Nat.succ_pos _, Nat.le_of_not_lt hlog, fun s => ?_, ?_, ?_⟩, Array.size_push ..⟩
  · rw [weight_push]
    grind
  · grind
  · rw [Array.size_push, sum_range_succ, weight_push, if_neg (lt_irrefl _), if_pos rfl, room_succ, hpower,
      sum_congr rfl fun s hs => by rw [weight_push, if_pos (mem_range.1 hs)], htotal]
    grind

/-! ### Listing the weights -/

theorem code_weights (h : t.Full) : t.code.weights = t.weights.pop := by
  have hsize : t.code.widths.size = t.weights.size := Array.size_map
  have hlist : t.code.weights.size = t.weights.size - 1 := by
    rw [Code.weights, Array.size_map, Array.size_extract, Code.maxSymbol, hsize]
    omega
  refine Array.ext (by rw [hlist, Array.size_pop]) fun i h1 h2 => ?_
  have hle := h.le i
  have hwidth := t.code_widths i
  have hget : t.code.widths.getD i 0 = t.code.widths[i] := by
    simp [Array.getD_eq_getD_getElem?, show i < t.code.widths.size by omega]
  have hweight : t.weight i = t.weights[i] := by
    simp [weight, Array.getD_eq_getD_getElem?, show i < t.weights.size by omega]
  rw [hget, widthOf] at hwidth
  simp only [Code.weights, Array.getElem_map, Array.getElem_extract, zero_add, Array.getElem_pop, hwidth, ← hweight]
  show (if (if t.weight i = 0 then 0 else t.log + 1 - t.weight i) = 0 then 0
    else t.log + 1 - if t.weight i = 0 then 0 else t.log + 1 - t.weight i) = t.weight i
  grind

theorem packWeights_spec (ws : Array Nat) (hsmall : ∀ s, ws.getD s 0 < 16) (i : Nat) (out : ByteArray) (n : Nat) :
    (packWeights ws i out n).size = out.size + n ∧ (∀ k < out.size, natAt (packWeights ws i out n) k = natAt out k) ∧
      ∀ k < n, natAt (packWeights ws i out n) (out.size + k) = ws.getD (i + 2 * k) 0 * 16 + ws.getD (i + 2 * k + 1) 0 := by
  induction n generalizing i out with
  | zero => exact ⟨rfl, fun _ _ => rfl, nofun⟩
  | succ n ih =>
    rw [packWeights]
    generalize hv : (ws.getD i 0 * 16 + ws.getD (i + 1) 0).toUInt8 = v
    obtain ⟨h1, h2, h3⟩ := ih (i + 2) (out.push v)
    rw [size_push] at h1 h2 h3
    refine ⟨by omega, fun k hk => ?_, fun k hk => ?_⟩
    · grind [byteAt_push_lt, natAt.eq_1]
    · rcases k with _ | k
      · have ha := hsmall i
        have hb := hsmall (i + 1)
        rw [h2 _ (by omega), add_zero, natAt, byteAt_push_self, ← hv, Nat.toUInt8, UInt8.toNat_ofNat']
        exact Nat.mod_eq_of_lt (by omega)
      grind

theorem unpack_pack (hsmall : ∀ s, ws.getD s 0 < 16) (first : UInt8) (rest : ByteArray) :
    unpackWeights (packWeights ws 0 (ByteArray.empty.push first) ((ws.size + 1) / 2) ++ rest) ws.size = ws := by
  obtain ⟨h1, -, h3⟩ := packWeights_spec ws hsmall 0 (ByteArray.empty.push first) ((ws.size + 1) / 2)
  have hone : (ByteArray.empty.push first).size = 1 := rfl
  rw [hone] at h1 h3
  refine Array.ext (by simp [unpackWeights]) fun i hi hi' => ?_
  have hbyte : natAt (packWeights ws 0 (ByteArray.empty.push first) ((ws.size + 1) / 2) ++ rest) (1 + i / 2) =
      ws.getD (2 * (i / 2)) 0 * 16 + ws.getD (2 * (i / 2) + 1) 0 := by
    rw [natAt, byteAt_append_left (by omega), ← natAt, h3 (i / 2) (by omega), zero_add]
  have hget : ws.getD i 0 = ws[i] := by simp [Array.getD_eq_getD_getElem?, hi']
  simp only [unpackWeights, List.getElem_toArray, List.getElem_map, List.getElem_range, hbyte]
  grind

/-! ### Coded weights -/

/-- A symbol that is not the only one with states does not own all of them. -/
theorem share_lt {d : Fse.Distribution} (h : d.Valid) (hne : u ≠ v) (hv : 0 < d.share v) : d.share u < 2 ^ d.log := by
  have hsum := h.sum
  rw [Fse.sum_range_eq] at hsum
  have hout : ∀ s, d.counts.size ≤ s → d.share s = 0 := fun s hs => by
    simp_all [Fse.Distribution.share, Fse.Distribution.count]
  by_cases hu : d.counts.size ≤ u
  · simp_all
  · have hv' : v < d.counts.size := by
      by_contra hge
      rw [hout v (by omega)] at hv
      omega
    have hsub : ({u, v} : Finset Nat) ⊆ range d.counts.size := by
      intro x hx
      simp only [mem_insert, mem_singleton] at hx
      rw [mem_range]
      omega
    have hle := sum_le_sum_of_subset (f := d.share) hsub
    grind

theorem highBit_le_three (h : n ≤ 11) : highBit n ≤ 3 := by
  rcases Nat.eq_zero_or_pos n with rfl | hpos
  · decide
  · exact Nat.le_of_lt_succ ((Nat.log2_lt (by omega)).2 (by omega))

/-- Weights that have been coded with finite states are read back. -/
theorem decompress_codeWeights (hsmall : ∀ w ∈ ws, w ≤ 11) (hsize : ws.size ≤ 255)
    (h : codeWeights ws = some coded) (hne : 1 < coded.size) : Fse.decompress coded 255 6 = .ok ws := by
  unfold codeWeights at h
  split at h
  · obtain rfl := Option.some.inj h
    simp at hne
  have hof := Histogram.ofSymbols_of fun s hs => lt_of_le_of_lt (hsmall s hs) (show 11 < 256 by omega)
  generalize Histogram.ofSymbols ws = hist at h hof
  dsimp only at h
  split at h
  · obtain rfl := Option.some.inj h
    simp at hne
  rename_i hfew
  obtain ⟨d, hd, h⟩ := Option.bind_eq_some_iff.1 h
  obtain ⟨head, hhead, h⟩ := Option.bind_eq_some_iff.1 h
  split at h
  case h_2 =>
    obtain rfl := Option.some.inj h
    simp at hne
  rename_i body hbody
  obtain rfl := Option.some.inj h
  have hlen : ws.toList.length = ws.size := Array.length_toList
  obtain ⟨hvalid, hlog, hcounts, hshare⟩ := Fse.normalize_valid (hof.sum.trans hlen) (by omega) (by omega) hd
  have hlast := hof.last (List.ne_nil_of_length_pos (by omega))
  have hmax : hist.counts.size - 1 ≤ 11 :=
    hsmall _ (Array.mem_toList_iff.1 (List.count_pos_iff.1 (pos_of_ne_zero hlast)))
  have hleast : Fse.leastLog ws.size hist.maxSymbol ≤ 6 := by
    have := highBit_le_three hmax
    rw [Fse.leastLog, Histogram.maxSymbol]
    omega
  have hfound : ∀ s ∈ ws.toList, 0 < d.share s := fun s hs => by
    rw [hshare, hof.count]
    grind
  refine Fse.decompress_encodeAll hvalid ?_ (by omega) ?_ (fun s hs => ?_) hsize hhead hbody
  · rw [hcounts]
    have := hfound _ (List.count_pos_iff.1 (pos_of_ne_zero hlast))
    exact Int.natAbs_ne_zero.1 (ne_of_gt this)
  · rw [hlog]
    exact Fse.bestLog_le hleast (by decide)
  · -- another weight stands beside this one
    obtain ⟨v, hv, hvs⟩ : ∃ v ∈ ws.toList, v ≠ s := by
      by_contra hall
      push Not at hall
      have := hof.count_lt (fun h => hfew (.inl h)) s
      exact absurd (List.count_eq_length.2 fun v hv => (hall v hv).symm) (ne_of_lt this)
    exact ⟨hfound s (Array.mem_toList_iff.2 hs), share_lt hvalid hvs.symm (hfound v hv)⟩

/-! ### Reading a code -/

theorem size_decodeAlternating (fuel : Nat)
    (h : Fse.decodeAlternating dec limit c one two out fuel = .ok ws) : ws.size ≤ limit := by
  induction fuel generalizing c one two out with
  | zero => cases h
  | succ fuel ih =>
    rw [Fse.decodeAlternating] at h
    grind

theorem size_decompress (h : Fse.decompress b limit most = .ok ws) :
    ws.size ≤ limit := by
  obtain ⟨⟨d, used⟩, -, h⟩ := ok_of_bind h
  obtain ⟨-, h⟩ := ok_of_check h
  obtain ⟨-, h⟩ := ok_of_check h
  obtain ⟨c, -, h⟩ := ok_of_bind h
  exact size_decodeAlternating _ h

theorem size_readListed (h : readListed b = .ok (ws, n)) : ws.size ≤ 255 := by
  unfold readListed at h
  obtain ⟨-, h⟩ := ok_of_check h
  dsimp only at h
  split at h
  · obtain ⟨-, h⟩ := ok_of_check h
    obtain ⟨rfl, -⟩ := Prod.mk.inj (Except.ok.inj h)
    grind [natAt_lt, unpackWeights]
  · obtain ⟨-, h⟩ := ok_of_check h
    obtain ⟨ws', hws, h⟩ := ok_of_bind h
    obtain ⟨rfl, -⟩ := Prod.mk.inj (Except.ok.inj h)
    exact size_decompress hws

theorem read_full (h : WeightTable.read b = .ok (t, n)) : t.Full := by
  obtain ⟨⟨ws, used⟩, hws, h⟩ := ok_of_bind h
  obtain ⟨t', ht, h⟩ := ok_of_bind h
  obtain ⟨rfl, -⟩ := Prod.mk.inj (Except.ok.inj h)
  exact (full_of_complete (size_readListed hws) ht).1

theorem read_write (h : t.Full) (hlog : t.log ≤ 11) (hlast : t.weight (t.weights.size - 1) ≠ 0) (hone : ∃ s, t.weight s = 1)
    (hw : t.code.write = some head) (rest : ByteArray) : WeightTable.read (head ++ rest) = .ok (t, head.size) := by
  have hsize := h.size_le
  have hlt := h.one_lt_size
  have hpop : t.weights.pop.size = t.weights.size - 1 := Array.size_pop
  have hsmall : ∀ w ∈ t.weights.pop, w ≤ 11 := fun w hw => by
    obtain ⟨i, hi, rfl⟩ := Array.mem_iff_getElem.1 hw
    have := h.le i
    rw [weight, Array.getD_eq_getD_getElem?, Array.getElem?_eq_getElem (by omega)] at this
    grind
  have hsmall' : ∀ s, t.weights.pop.getD s 0 < 16 := fun s => by
    rw [Array.getD_eq_getD_getElem?]
    rcases lt_or_ge s t.weights.pop.size with hs | hs
    · grind [Array.getElem_mem]
    simp_all
  unfold Code.write at hw
  rw [code_weights h] at hw
  obtain ⟨coded, hcoded, hw⟩ := Option.bind_eq_some_iff.1 hw
  suffices hlisted : readListed (head ++ rest) = .ok (t.weights.pop, head.size) by
    unfold WeightTable.read
    rw [hlisted]
    simp only [bind, Except.bind, complete_listed h hlast hone]
    rfl
  split at hw
  · rename_i hshort
    obtain rfl := Option.some.inj hw
    have hbyte : natAt (ByteArray.empty.push coded.size.toUInt8 ++ coded ++ rest) 0 = coded.size := by
      exact Nat.mod_eq_of_lt (by omega)
    have htotal : (ByteArray.empty.push coded.size.toUInt8 ++ coded).size = coded.size + 1 := by
      rw [size_append, size_push, size_empty, add_comm]
    have hslice : slice (ByteArray.empty.push coded.size.toUInt8 ++ coded ++ rest) 1 (coded.size + 1) = coded := by
      have := slice_middle (ByteArray.empty.push coded.size.toUInt8) coded rest
      rwa [size_push, size_empty, zero_add, add_comm 1] at this
    unfold readListed
    rw [check_ok (by rw [size_append, htotal]; omega), hbyte]
    rw [if_neg (by omega), check_ok (by rw [size_append, htotal]; omega), hslice,
      bind_of_ok (decompress_codeWeights hsmall (by omega) hcoded hshort.1), htotal]
    rfl
  split at hw
  · cases hw
  obtain rfl := Option.some.inj hw
  generalize hfirst : (128 + (t.weights.pop.size - 1)).toUInt8 = first
  obtain ⟨h1, h2, -⟩ := packWeights_spec t.weights.pop hsmall' 0 (ByteArray.empty.push first) ((t.weights.pop.size + 1) / 2)
  have hunpack := unpack_pack hsmall' first rest
  generalize packWeights t.weights.pop 0 (ByteArray.empty.push first) ((t.weights.pop.size + 1) / 2) = packed at h1 h2 hunpack
  rw [size_push, size_empty, zero_add] at h1 h2
  have hbyte : natAt (packed ++ rest) 0 = 128 + (t.weights.pop.size - 1) := by
    rw [natAt, byteAt_append_left (by omega), ← natAt, h2 0 (by omega), natAt, ← size_empty, byteAt_push_self, ← hfirst,
      Nat.toUInt8, UInt8.toNat_ofNat']
    exact Nat.mod_eq_of_lt (by omega)
  unfold readListed
  rw [check_ok (by rw [size_append]; omega), hbyte]
  rw [if_pos (by omega), check_ok (by rw [size_append]; omega), show 128 + (t.weights.pop.size - 1) - 127 = t.weights.pop.size by omega,
    hunpack, h1, add_comm 1]
  rfl

end WeightTable

end ZstCodec.Huffman
