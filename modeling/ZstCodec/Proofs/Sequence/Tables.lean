import ZstCodec.Proofs.Sequence.Stream
import ZstCodec.Proofs.Fse.Distribution
import ZstCodec.Proofs.Histogram

/-! # Tables that writer and reader share

A table that is used again must be that of a distribution whose symbols the reader's table decodes (`Table.Shared`).
Whatever source is chosen for the codes of a block, the reader finds a table there that decodes all of them, and the two
share it afterwards (`chooseTable_spec`). -/

namespace ZstCodec.Sequence

open Fse.Distribution

open Fse (Matches)

variable {c : Chosen} {last s v : Nat}

/-! ### Kinds -/

/-- What the three kinds have in common. -/
structure Kind.Regular (k : Kind) : Prop where
  valid : k.default.Valid
  share_pos : ∀ s ≤ k.default.maxSymbol, 0 < k.default.share s
  maxSymbol_le : k.default.maxSymbol ≤ k.maxCode
  maxCode_lt : k.maxCode < 64
  le_maxLog : 7 ≤ k.maxLog
  maxLog_le : k.maxLog ≤ Fse.maxLog

/-- Distributions are checked entry by entry. -/
theorem valid_of_entries {d : Fse.Distribution} (hlog : Fse.minLog ≤ d.log ∧ d.log ≤ Fse.maxLog) (hge : ∀ c ∈ d.counts, -1 ≤ c)
    (hsum : ((List.range d.counts.size).map d.share).sum = 2 ^ d.log) : d.Valid where
  le_log := hlog.1
  log_le := hlog.2
  sum := hsum
  ge s := by
    rw [count, Array.getD_eq_getD_getElem?]
    grind [Array.getElem_mem]

theorem litLengthKind_regular : litLengthKind.Regular :=
  ⟨valid_of_entries (by decide) (by decide) (by decide), by decide, by decide, by decide, by decide, by decide⟩

theorem matchLengthKind_regular : matchLengthKind.Regular :=
  ⟨valid_of_entries (by decide) (by decide) (by decide), by decide, by decide, by decide, by decide, by decide⟩

theorem offsetKind_regular : offsetKind.Regular :=
  ⟨valid_of_entries (by decide) (by decide) (by decide), by decide, by decide, by decide, by decide, by decide⟩

/-! ### Shared tables -/

/-- The writer's table is that of a distribution that the reader's table decodes, if it may be used again. A complete one
has all symbols up to `reach`. -/
def Table.Shared (t : Table) (reach : Nat) (before : Option Fse.Decoder) : Prop :=
  t.known ≠ .nothing → ∃ (dist : Fse.Distribution) (dec : Fse.Decoder), before = some dec ∧ dist.Valid ∧ t.encoder = dist.encoder ∧
    (∀ s, 0 < dist.share s → Matches dist.encoder dec s) ∧ (t.known = .complete → ∀ s ≤ reach, 0 < dist.share s)

namespace Table.Shared

variable {t : Table} {reach : Nat} {before : Option Fse.Decoder}

theorem of_nothing (h : t.known = .nothing) (reach : Nat) (before : Option Fse.Decoder) : t.Shared reach before := fun hne => absurd h hne

theorem of_unchecked (h : t.Shared reach before) (hk : t.known ≠ .complete) (reach' : Nat) : t.Shared reach' before := fun hne => by
  obtain ⟨dist, dec, hd, hv, he, hm, -⟩ := h hne
  grind

theorem unchecked (h : t.Shared reach before) (hk : t.known ≠ .nothing) (reach' : Nat) :
    Table.Shared { t with known := .unchecked } reach' before := fun _ => by
  obtain ⟨dist, dec, hd, hv, he, hm, -⟩ := h hk
  grind

theorem of_distribution {d : Fse.Distribution} (h : d.Valid) (he : t.encoder = d.encoder) (hk : t.known ≠ .complete) :
    t.Shared reach (some d.decoder) := fun _ =>
  ⟨d, d.decoder, rfl, h, he, fun _ hs => h.matches_encoder hs, fun hc => absurd hc hk⟩

end Table.Shared

/-! ### Choosing a source -/

variable {k : Kind} {h : Histogram} {codes : Array Nat} {n : Nat} {old : Table}

theorem costWith_fold {t : Fse.Encoder} (n : Nat) :
    ((List.range n).foldl
      (fun (acc : Option Nat) s =>
        match acc with
        | none => none
        | some cost =>
          if h.count s = 0 then some cost
          else if (t.log + 1) * 256 ≤ t.cost s then none
          else some (cost + h.count s * t.cost s)) (some 0)).isSome →
      ∀ s < n, h.count s ≠ 0 → t.cost s < (t.log + 1) * 256 := by
  refine Fse.foldl_range (fun k (acc : Option Nat) => acc.isSome → ∀ s < k, h.count s ≠ 0 → t.cost s < (t.log + 1) * 256) _ _ n
    (fun _ s hs => absurd hs (Nat.not_lt_zero s)) fun k acc _ ih hsome s hs hcount => ?_
  cases acc with
  | none => exact absurd hsome (by simp)
  | some cost =>
    rcases Nat.lt_succ_iff_lt_or_eq.1 hs with hs | rfl
    · exact ih rfl s hs hcount
    simp_all

/-- A table with a cost has all symbols that occur. -/
theorem costWith_isSome (hc : (costWith t h).isSome) :
    h.maxSymbol ≤ t.maxSymbol ∧ ∀ s < h.counts.size, h.count s ≠ 0 → t.cost s < (t.log + 1) * 256 := by
  unfold costWith at hc
  split at hc
  · exact absurd hc (by simp)
  · rw [Option.isSome_map] at hc
    exact ⟨by omega, costWith_fold _ hc⟩

/-- Each source is chosen for a reason. -/
inductive Reasoned (h : Histogram) (n : Nat) (old : Table) (defaultAllowed : Bool) : Source × Known → Prop
  | predefined (hd : defaultAllowed = true) : Reasoned h n old defaultAllowed (.predefined, .nothing)
  | single (hn : h.largest = n) : Reasoned h n old defaultAllowed (.single, .nothing)
  | again (hk : old.known ≠ .nothing) (hc : old.known = .complete ∨ (costWith old.encoder h).isSome) :
    Reasoned h n old defaultAllowed (.again, old.known)
  | written (hn : h.largest ≠ n) : Reasoned h n old defaultAllowed (.written, .unchecked)

theorem choose_reasoned (k : Kind) (h : Histogram) (n : Nat) (old : Table) (defaultAllowed : Bool) (s : Strategy) :
    Reasoned h n old defaultAllowed (choose k h n old defaultAllowed s) := by
  unfold choose
  dsimp only
  split
  case isTrue hn =>
    split
    case isTrue hd => exact .predefined hd.1
    case isFalse => exact .single hn
  case isFalse hn =>
    split
    case isTrue =>
      split
      case isTrue hc =>
        simp only [Bool.and_eq_true, decide_eq_true_eq] at hc
        exact .again (by rw [hc.1.2]; decide) (.inl hc.1.2)
      case isFalse =>
        split
        case isTrue hd => exact .predefined (Bool.and_eq_true _ _ ▸ hd).1
        case isFalse => exact .written hn
    case isFalse =>
      generalize hbasic : (if defaultAllowed then some (costUnder k.default h) else none) = basic
      generalize hagain : (if old.known ≠ .nothing then costWith old.encoder h else none) = again
      split
      case isTrue hb =>
        refine .predefined ?_
        grind
      case isFalse =>
        split
        case isTrue ha =>
          simp only [Bool.and_eq_true] at ha
          by_cases hk : old.known = .nothing
          · simp [← hagain, hk] at ha
          · rw [if_pos hk] at hagain
            exact .again hk (.inr (hagain ▸ ha.1))
        case isFalse => exact .written hn

/-! ### Each source and its reader -/

/-- What the reader finds behind `pre`: a decoder of all codes, shared afterwards. -/
structure Found (k : Kind) (codes : Array Nat) (before : Option Fse.Decoder) (reach : Nat) (c : Chosen) (dec : Fse.Decoder) : Prop where
  read : ∀ pre rest : ByteArray,
    readTable k k.default.decoder c.source before (pre ++ (c.head ++ rest)) pre.size = .ok (dec, pre.size + c.head.size)
  decodes : ∀ s ∈ codes, Matches c.table.encoder dec s
  shared : c.table.Shared reach (some dec)

variable {before : Option Fse.Decoder} {reach : Nat}

theorem found_predefined (hk : k.Regular) (hcodes : ∀ s ∈ codes, s ≤ k.default.maxSymbol) :
    Found k codes before reach ⟨.predefined, .empty, { encoder := k.default.encoder, known := .nothing }⟩ k.default.decoder where
  read _ _ := rfl
  decodes s hs := hk.valid.matches_encoder (hk.share_pos s (hcodes s hs))
  shared := .of_nothing rfl _ _

theorem natAt_push_append (pre rest : ByteArray) (hv : v < 256) :
    natAt (pre ++ (ByteArray.empty.push v.toUInt8 ++ rest)) pre.size = v := by
  have hright := natAt_append_right pre (ByteArray.empty.push v.toUInt8 ++ rest) 0
  rw [add_zero] at hright
  rw [hright, natAt_append_left (by simp [size_push]), natAt,
    show byteAt (ByteArray.empty.push v.toUInt8) 0 = v.toUInt8 from byteAt_push_self _]
  exact Nat.mod_eq_of_lt hv

theorem found_single (hs : s ≤ k.maxCode) (h256 : k.maxCode < 256) (hcodes : ∀ v ∈ codes, v = s) :
    Found k codes before reach ⟨.single, ByteArray.empty.push s.toUInt8, { encoder := .single s, known := .nothing }⟩ (.single s) where
  read pre rest := by
    have hnat := natAt_push_append pre rest (lt_of_le_of_lt hs h256)
    simp_all [readTable]
  decodes v hv := by
    obtain rfl := hcodes v hv
    exact Matches.single v
  shared := .of_nothing rfl _ _

theorem found_again (hold : old.Shared reach before) (hkn : old.known ≠ .nothing)
    (hof : h.Of codes.toList) (hreach : ∀ s ∈ codes, s ≤ reach) (hc : old.known = .complete ∨ (costWith old.encoder h).isSome) :
    ∃ dec, Found k codes before reach ⟨.again, .empty, { old with known := old.known }⟩ dec := by
  obtain ⟨dist, dec, rfl, hv, he, hm, hcomplete⟩ := hold hkn
  refine ⟨dec, fun _ _ => rfl, fun s hs => ?_, fun _ => ⟨dist, dec, rfl, hv, he, hm, hcomplete⟩⟩
  rw [he]
  refine hm s ?_
  rcases hc with hc | hc
  · exact hcomplete hc s (hreach s hs)
  · rw [he] at hc
    obtain ⟨hmax, hcost⟩ := costWith_isSome hc
    have hs' : s ∈ codes.toList := Array.mem_toList_iff.2 hs
    have hlt := hof.mem_lt hs'
    have hne : dist.counts.size ≠ 0 := fun h0 => by
      have := hv.sum
      grind
    refine share_pos_of_cost hv (by unfold Histogram.maxSymbol at hmax; omega) hne (hcost s hlt ?_)
    rw [Histogram.count, hof.count]
    grind

/-- The last code is not counted if it occurs again: it is told by the state at the end. -/
theorem counts_less_last (hof : h.Of codes.toList) (hmem : last ∈ codes) {counts : Array Nat}
    (hct : (counts, total) = if 1 < h.count last then (h.counts.modify last (· - 1), codes.size - 1) else (h.counts, codes.size)) :
    counts.size = h.counts.size ∧ (∀ s, counts.getD s 0 = 0 ↔ h.counts.getD s 0 = 0) ∧
      ∑ s ∈ Finset.range counts.size, counts.getD s 0 = total ∧ 0 < total ∧ total ≤ codes.size := by
  have hpos : 0 < codes.size := Array.size_pos_of_mem hmem
  have hlen : codes.toList.length = codes.size := Array.length_toList
  have hlt : last < h.counts.size := hof.mem_lt (Array.mem_toList_iff.2 hmem)
  split at hct
  case isFalse =>
    obtain ⟨rfl, rfl⟩ := Prod.mk.inj hct
    exact ⟨rfl, fun s => Iff.rfl, hof.sum.trans hlen, hpos, le_rfl⟩
  case isTrue hmany =>
    have hget (s : Nat) : (h.counts.modify last (· - 1)).getD s 0 = if s = last then h.counts.getD s 0 - 1 else h.counts.getD s 0 := by
      rcases lt_or_ge s h.counts.size with hs | hs
      · simp only [Array.getD_eq_getD_getElem?, Array.getElem?_modify, eq_comm (a := last)]
        split <;> simp [hs]
      · grind
    have hcount : 1 < h.counts.getD last 0 := hmany
    have hset := Fse.sum_range_set (f := fun s => h.counts.getD s 0) (g := fun s => (h.counts.modify last (· - 1)).getD s 0) hlt
      (fun t _ ht => by rw [hget, if_neg ht])
    have hsum := hof.sum
    have hle : h.counts.getD last 0 ≤ codes.size := by
      rw [hof.count, ← hlen]
      exact List.count_le_length
    grind

theorem found_written (hk : k.Regular) (hof : h.Of codes.toList) (hlt : codes.size < 2 ^ 31) (hcodes : ∀ s ∈ codes, s ≤ k.maxCode)
    (hmem : last ∈ codes) (hknown : known = .unchecked)
    (hb : build k h codes.size last old .written known = some c) : ∃ dec, Found k codes before reach c dec := by
  unfold build at hb
  generalize hct : (if 1 < h.count last then (h.counts.modify last (· - 1), codes.size - 1) else (h.counts, codes.size)) = ct at hb
  obtain ⟨hsize, hzero, hsum, hpos, hle⟩ := counts_less_last hof hmem hct.symm
  obtain ⟨d, hd, hb⟩ := Option.bind_eq_some_iff.1 hb
  obtain ⟨head, hhead, hb⟩ := Option.bind_eq_some_iff.1 hb
  obtain rfl := Option.some.inj hb
  obtain ⟨hvalid, hlog, hcounts, hshare⟩ := Fse.normalize_valid hsum hpos (by omega) hd
  have hne : codes.toList ≠ [] := List.ne_nil_of_mem (Array.mem_toList_iff.2 hmem)
  have hmax : h.counts.size - 1 ≤ k.maxCode :=
    hcodes _ (Array.mem_toList_iff.1 (List.count_pos_iff.1 (pos_of_ne_zero (hof.last hne))))
  have hlast : d.count (d.counts.size - 1) ≠ 0 := by
    have hpos : 0 < d.share (d.counts.size - 1) := by
      rw [hshare, Ne, hzero, hcounts, hsize, hof.count]
      exact hof.last hne
    exact Int.natAbs_ne_zero.1 (ne_of_gt hpos)
  have hleast : Fse.leastLog codes.size h.maxSymbol ≤ k.maxLog := by
    have := highBit_lt_of_lt (n := h.maxSymbol) (k := 6) (by omega) (by have := hk.maxCode_lt; unfold Histogram.maxSymbol; omega)
    have := hk.le_maxLog
    unfold Fse.leastLog
    omega
  have hdlog : ¬ k.maxLog < d.log := by
    rw [hlog, not_lt]
    exact Fse.bestLog_le hleast (le_trans (by decide) hk.le_maxLog)
  refine ⟨d.decoder, fun pre rest => ?_, fun s hs => ?_, .of_distribution hvalid rfl (by subst hknown; exact nofun)⟩
  · have hmost : d.counts.size ≤ k.maxCode + 1 := by omega
    have hread := read_write hvalid hlast hmost hhead rest
    rw [readTable, slice_append_right]
    simp_all
  · refine hvalid.matches_encoder ((hshare s).2 fun h0 => ?_)
    rw [hzero, hof.count] at h0
    grind

/-- If the most frequent code is all there is, every code is it. -/
theorem eq_of_largest (hof : h.Of codes.toList) (hl : h.largest = codes.size) (hu : u ∈ codes) (hv : v ∈ codes) : u = v := by
  obtain ⟨s, hs⟩ := hof.largest
  have hall := List.count_eq_length.1 (show codes.toList.count s = codes.toList.length by rw [← hs, hl, Array.length_toList])
  rw [← hall u (Array.mem_toList_iff.2 hu), ← hall v (Array.mem_toList_iff.2 hv)]

/-- Whatever source is chosen, the reader finds a table there that decodes the codes. -/
theorem chooseTable_spec (hk : k.Regular) (hne : codes.size ≠ 0) (hlt : codes.size < 2 ^ 31) (hcodes : ∀ s ∈ codes, s ≤ k.maxCode)
    (hreach : ∀ s ∈ codes, s ≤ reach) (hold : old.Shared reach before) {s : Strategy}
    (hc : chooseTable k codes old s = some c) : ∃ dec, Found k codes before reach c dec := by
  have h256 : k.maxCode < 256 := lt_trans hk.maxCode_lt (by omega)
  have hof := Histogram.ofSymbols_of fun v hv => lt_of_le_of_lt (hcodes v hv) h256
  have hlast : codes.getD (codes.size - 1) 0 ∈ codes := getD_mem_array (by omega)
  have hmax : (Histogram.ofSymbols codes).maxSymbol ∈ codes :=
    Array.mem_toList_iff.1 (List.count_pos_iff.1 (pos_of_ne_zero (hof.last (List.ne_nil_of_mem (Array.mem_toList_iff.2 hlast)))))
  unfold chooseTable at hc
  dsimp only at hc
  have hreason := choose_reasoned k (Histogram.ofSymbols codes) codes.size old
    (decide ((Histogram.ofSymbols codes).maxSymbol ≤ k.default.maxSymbol)) s
  generalize choose k _ _ _ _ _ = r at hc hreason
  cases hreason with
  | predefined hd =>
    obtain rfl := Option.some.inj hc
    exact ⟨_, found_predefined hk fun v hv => by
      have := hof.mem_lt (Array.mem_toList_iff.2 hv)
      rw [decide_eq_true_eq, Histogram.maxSymbol] at hd
      omega⟩
  | single hn =>
    obtain rfl := Option.some.inj hc
    have heq := eq_of_largest hof hn hlast hmax
    rw [heq]
    exact ⟨_, found_single (hcodes _ hmax) h256 fun v hv => eq_of_largest hof hn hv hmax⟩
  | again hkn hcost =>
    obtain rfl := Option.some.inj hc
    exact found_again hold hkn hof hreach hcost
  | written hn => exact found_written hk hof hlt hcodes hlast rfl hc

/-! ### Padding -/

/-- A distribution with more symbols that do not occur. -/
def padded (d : Fse.Distribution) (n : Nat) : Fse.Distribution := { d with counts := d.counts ++ Array.replicate n 0 }

theorem foldl_range_pad {α : Type} {f g : α → Nat → α} (hlow : ∀ x, ∀ s < a, f x s = g x s) (hhigh : ∀ x s, a ≤ s → f x s = x)
    (x : α) : (List.range (a + n)).foldl f x = (List.range a).foldl g x := by
  have hrest (l : List Nat) (hl : ∀ s ∈ l, a ≤ s) (x : α) : l.foldl f x = x := by
    induction l generalizing x with
    | nil => rfl
    | cons s l ih => simp_all
  have hfirst (l : List Nat) (hl : ∀ s ∈ l, s < a) (x : α) : l.foldl f x = l.foldl g x := by
    induction l generalizing x with
    | nil => rfl
    | cons s l ih => simp_all
  rw [List.range_add, List.foldl_append, hrest _ (by simp), hfirst _ (by simp)]

section
variable {d : Fse.Distribution} (n : Nat)

theorem getD_padded (s : Nat) : (padded d n).counts.getD s 0 = d.counts.getD s 0 := by
  simp only [padded, Array.getD_eq_getD_getElem?, Array.getElem?_append]
  grind

theorem share_padded (s : Nat) : (padded d n).share s = d.share s := by
  rw [share, count, getD_padded]
  rfl

theorem size_padded : (padded d n).counts.size = d.counts.size + n := by simp [padded]

theorem getD_of_ge (hs : d.counts.size ≤ s) : d.counts.getD s 0 = 0 := by simp [Array.getD_eq_getD_getElem?, hs]

theorem spread_padded : (padded d n).spread = d.spread := by
  have hrare : Fse.placeRare (padded d n).counts (Array.replicate d.size 0) = Fse.placeRare d.counts (Array.replicate d.size 0) := by
    rw [Fse.placeRare, Fse.placeRare, size_padded]
    refine foldl_range_pad (fun x s _ => ?_) (fun x s hs => ?_) _
    · rw [getD_padded]
    · rw [getD_padded, getD_of_ge hs, if_neg (by decide)]
  have hsize : (padded d n).size = d.size := rfl
  rw [spread, spread, hsize, hrare, size_padded]
  dsimp only
  congr 1
  refine foldl_range_pad (fun x s _ => ?_) (fun x s hs => ?_) _
  · rw [getD_padded]
  · rw [getD_padded, getD_of_ge hs]
    rfl

theorem valid_padded (h : d.Valid) : (padded d n).Valid where
  le_log := h.le_log
  log_le := h.log_le
  ge s := by
    rw [count, getD_padded]
    exact h.ge s
  sum := by
    rw [size_padded, List.range_add, List.map_append, List.sum_append, List.map_congr_left fun s _ => share_padded n s, h.sum,
      List.map_map, List.sum_eq_zero (by
        simp only [List.mem_map, List.mem_range, Function.comp_apply]
        rintro x ⟨i, -, rfl⟩
        rw [share_padded, share_of_ge (by omega)]), add_zero]
    rfl

/-- The table of the padded distribution codes what that of the distribution decodes. -/
theorem matches_padded (h : d.Valid) (hs : 0 < d.share s) : Matches (padded d n).encoder d.decoder s := by
  have hp := valid_padded n h
  have hm := hp.matches_encoder (s := s) (by rwa [share_padded])
  have hturn (u : Nat) : (padded d n).turn u = d.turn u := by
    rw [turn, turn, spread_padded, share_padded]
  have hsame {u : Nat} (hu : u < 2 ^ d.log) : (padded d n).decoder.symbol u = d.decoder.symbol u ∧
      (padded d n).decoder.bits.getD u 0 = d.decoder.bits.getD u 0 ∧ (padded d n).decoder.bases.getD u 0 = d.decoder.bases.getD u 0 := by
    obtain ⟨h1, h2, h3⟩ := decoder_spec hp (u := u) hu
    obtain ⟨h4, h5, h6⟩ := decoder_spec h (u := u) hu
    rw [h1, h2, h3, h4, h5, h6, hturn, spread_padded]
    exact ⟨rfl, rfl, rfl⟩
  have hmod (y : Nat) : y % 2 ^ (padded d n).encoder.log < 2 ^ d.log := Nat.mod_lt _ (Nat.two_pow_pos _)
  refine ⟨rfl, hm.log_le, ⟨hm.init.1, by rw [← (hsame (hmod _)).1]; exact hm.init.2⟩, fun x hx => ?_⟩
  obtain ⟨m, hle, y, hy, he, h1, h2, h3⟩ := hm.encode x hx
  obtain ⟨g1, g2, g3⟩ := hsame (hmod y)
  exact ⟨m, hle, y, hy, he, g1 ▸ h1, g2 ▸ h2, g3 ▸ h3⟩

end

end ZstCodec.Sequence
