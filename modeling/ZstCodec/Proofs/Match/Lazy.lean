import ZstCodec.Proofs.Match.LateTree
import ZstCodec.Match.Lazy

/-! # The greedy and lazy strategies explain their blocks

The loop needs two things only: that the search is sound, and that a repetition is looked at only where its offset is in
reach. The choice it works on is then a match at every moment. -/

namespace ZstCodec.Match.Lazy

variable {c : Choice} {n offset pos : Nat} {p : Progress} {r reps : Reps}

/-- What is known of an offset carried along. Beside an older segment its reach is tested when it is used. -/
def Carried (f : Finder) (pos o : Nat) : Prop := f.older = .segment ∨ Within f.bottom f.span pos o

theorem carried_reaching (f : Finder) : Reaching f.bottom f.span (Carried f) :=
  ⟨fun h hp => h.imp_right fun h => h.mono hp, .inr⟩

/-- A choice is a match behind `anchor`: a repetition by `rep1`, or a match with an offset of its own. -/
structure Choice.Valid (b : ByteArray) (low window stop anchor rep1 : Nat) (c : Choice) : Prop where
  least : 4 ≤ c.length
  le_stop : c.at_ + c.length ≤ stop
  source : (c.code = 1 ∧ anchor < c.at_ ∧ Within low window c.at_ rep1 ∧ Agree b c.at_ (c.at_ - rep1) c.length) ∨
    ∃ o, c.code = o + 3 ∧ anchor ≤ c.at_ ∧ Within low window c.at_ o ∧ Agree b c.at_ (c.at_ - o) c.length

section

variable {f : Finder} {i j : Nat}

theorem limit_le (f : Finder) (j : Nat) : (scan f j).limit ≤ j - hashReach := by
  simp only [scan]
  split <;> omega

theorem within_of_allows (hp : f.Placed i j) (hj : pos ≤ j)
    (hc : 0 < offset → Carried f pos offset) (h0 : f.older ≠ .nothing → 0 < offset)
    (h : (scan f j).allows pos offset = true) : Within f.bottom f.span pos offset := by
  unfold Scan.allows at h
  split at h
  · rename_i ho
    change f.older = _ at ho
    exact (hc (of_decide_eq_true h)).resolve_left (by rw [ho]; decide)
  · rename_i ho
    change f.older = _ at ho
    exact (hc (h0 (by rw [ho]; decide))).resolve_left (by rw [ho]; decide)
  · rename_i ho
    change f.older = _ at ho
    have hpos : 0 < offset := h0 (by rw [ho]; decide)
    have hle : offset ≤ pos - f.lowest pos := of_decide_eq_true (Bool.and_eq_true_iff.1 h).1
    have hw := hp.within_lowest (show pos ≤ j by omega) (show f.lowest pos ≤ pos - offset by omega) (by omega)
    rwa [Nat.sub_sub_self (by omega)] at hw

/-- A repetition is looked at only if its offset is in reach. -/
theorem repetition_spec (hp : f.Placed i j) (hi : i ≤ pos) (hj : pos + hashReach ≤ j)
    (hc : 0 < offset → Carried f pos offset) (h0 : f.older ≠ .nothing → 0 < offset)
    (hn : (scan f j).repetition pos offset = n) :
    n = 0 ∨ 4 ≤ n ∧ pos + n ≤ j ∧ Within f.bottom f.span pos offset ∧ Agree f.content pos (pos - offset) n := by
  have hreach : hashReach = 8 := rfl
  unfold Scan.repetition at hn
  split at hn
  · rename_i h
    obtain ⟨ha, hs⟩ := Bool.and_eq_true_iff.1 h
    have hw := within_of_allows hp (by omega) hc h0 ha
    have hle := agreement_le f.content (pos + 4) (pos + 4 - offset) j
    have hlow := hw.low_le
    have h4 : Agree f.content pos (pos - offset) 4 := (same4_iff _ _ _).1 hs
    have ha := agree_agreement f.content (pos + 4) (pos + 4 - offset) j
    change agreement f.content (pos + 4) (pos + 4 - offset) j + 4 = n at hn
    rw [show pos + 4 - offset = pos - offset + 4 by omega] at ha hle hn
    subst hn
    refine .inr ⟨by omega, by omega, hw, ?_⟩
    rw [add_comm]
    exact h4.append ha
  · exact .inl hn.symm

variable {anchor rep1 : Nat}

/-- A repetition instead of the choice is a match again. -/
theorem preferRepetition_valid (hp : f.Placed i j) (hi : i ≤ pos) (hj : pos + hashReach ≤ j)
    (ha : anchor < pos) (hc : 0 < rep1 → Carried f pos rep1) (h0 : f.older ≠ .nothing → 0 < rep1) (weight : Nat)
    (h : c.Valid f.content f.bottom f.span j anchor rep1) :
    let c' := (scan f j).preferRepetition rep1 pos weight c
    c'.Valid f.content f.bottom f.span j anchor rep1 ∧ min c.at_ pos ≤ c'.at_ := by
  unfold Scan.preferRepetition
  dsimp only
  generalize hn : (scan f j).repetition pos rep1 = n
  split
  · rename_i hcond
    simp only [Bool.and_eq_true, decide_eq_true_eq] at hcond
    rcases repetition_spec hp hi hj hc h0 hn with h | ⟨h1, h2, h3, h4⟩
    · omega
    · exact ⟨⟨h1, h2, .inl ⟨rfl, ha, h3, h4⟩⟩, min_le_right _ _⟩
  · exact ⟨h, min_le_left _ _⟩

theorem preferFound_valid
    (rep1 : Nat) (ha : anchor ≤ pos) (hb : 4 ≤ best.length → best.Good b low window stop pos)
    (h : preferFound best pos margin c = some c') : c'.Valid b low window stop anchor rep1 ∧ c'.at_ = pos := by
  unfold preferFound at h
  dsimp only at h
  split at h
  · rename_i hcond
    simp only [Bool.and_eq_true, decide_eq_true_eq] at hcond
    obtain ⟨o, h1, h2, h3, h4⟩ := hb hcond.1
    cases h
    exact ⟨⟨hcond.1, h4, .inr ⟨o, h1, ha, h2, h3⟩⟩, rfl⟩
  · cases h

variable {Inv : Entries → Nat → Prop}

/-- Looking further keeps a match, and leaves entries only up to the place of the match. -/
theorem improve_spec (hp : f.Placed i j) (hs : Searcher.Sound (scan f j).search f i j Inv)
    (h0 : f.older ≠ .nothing → 0 < rep1) (skipping : Bool) (fuel : Nat) :
    ∀ (e : Entries) (pos n : Nat) (c : Choice), Inv e n → n ≤ pos + 1 → i ≤ pos → anchor ≤ pos → pos ≤ c.at_ →
      (0 < rep1 → Carried f pos rep1) → c.Valid f.content f.bottom f.span j anchor rep1 →
      let r := improve (scan f j) rep1 skipping e pos c fuel
      r.2.Valid f.content f.bottom f.span j anchor rep1 ∧ pos ≤ r.2.at_ ∧ ∃ m, Inv r.1 m ∧ m ≤ r.2.at_ + 3 := by
  have hlim := limit_le f j
  induction fuel with
  | zero => grind [improve]
  | succ fuel ih =>
    intro e pos n c hI hn hi ha hat hc hv
    have hcar {q : Nat} (hq : pos ≤ q) : 0 < rep1 → Carried f q rep1 := fun h => (carried_reaching f).mono (hc h) hq
    have hstep := @hs.step
    rw [improve]
    generalize (scan f j).search = search at hstep ⊢
    split
    · grind
    dsimp only
    obtain ⟨hv1, hat1⟩ := preferRepetition_valid hp (show i ≤ pos + 1 by omega) (by omega) (by omega) (hcar (by omega)) h0 3 hv
    obtain ⟨hI1, hb1⟩ := hstep skipping hI hn (show i ≤ pos + 1 by omega) (by omega)
    generalize search e (pos + 1) skipping = r at hI1 hb1 ⊢
    obtain ⟨e1, best1⟩ := r
    dsimp only at hI1 hb1 ⊢
    split
    · rename_i c' hc'
      obtain ⟨hv', hat'⟩ := preferFound_valid rep1 (show anchor ≤ pos + 1 by omega) hb1 hc'
      obtain ⟨h1, h2, h3⟩ := ih e1 (pos + 1) (pos + 2) c' hI1 (by omega) (by omega) (by omega) (by omega) (hcar (by omega)) hv'
      exact ⟨h1, by omega, h3⟩
    split
    · exact ⟨hv1, by dsimp only; omega, pos + 2, hI1, by dsimp only; omega⟩
    rename_i hlim2
    simp only [Bool.or_eq_true, decide_eq_true_eq, not_or, not_le] at hlim2
    obtain ⟨hv2, hat2⟩ := preferRepetition_valid hp (show i ≤ pos + 2 by omega) (by omega) (by omega) (hcar (by omega)) h0 4 hv1
    obtain ⟨hI2, hb2⟩ := hstep skipping hI1 (show pos + 2 ≤ pos + 2 by omega) (by omega) (by omega)
    rw [show pos + 1 + 1 = pos + 2 from rfl]
    generalize search e1 (pos + 2) skipping = r at hI2 hb2 ⊢
    obtain ⟨e2, best2⟩ := r
    dsimp only at hI2 hb2 ⊢
    split
    · rename_i c' hc'
      obtain ⟨hv', hat'⟩ := preferFound_valid rep1 (show anchor ≤ pos + 2 by omega) hb2 hc'
      obtain ⟨h1, h2, h3⟩ := ih e2 (pos + 2) (pos + 3) c' hI2 (by omega) (by omega) (by omega) (by omega) (hcar (by omega)) hv'
      exact ⟨h1, by omega, h3⟩
    · exact ⟨hv2, by dsimp only; omega, pos + 3, hI2, by dsimp only; omega⟩

variable {r₀ : Reps} {i₀ saved1 saved2 : Nat}

/-- The search stands at its place, and offsets are set aside only if there is no older segment. -/
structure Progress.Good (f : Finder) (j : Nat) (r₀ : Reps) (i₀ saved1 saved2 i : Nat) (p : Progress) : Prop where
  cursor : Cursor f.content j ⟨f.bottom, f.span, r₀, i₀, saved1, saved2⟩ (Carried f) p.seqs p.pos p.anchor p.rep1 p.rep2
  le_pos : i ≤ p.pos
  nothing_saved : f.older ≠ .nothing → saved1 = 0 ∧ saved2 = 0
  told : f.older ≠ .nothing → Reps.Told r₀

theorem Progress.Good.first_pos (h : p.Good f j r₀ i₀ saved1 saved2 i) (ho : f.older ≠ .nothing) :
    0 < p.rep1 :=
  h.cursor.cut.first_pos (h.nothing_saved ho).1 (h.told ho)

theorem Progress.Good.second_pos (h : p.Good f j r₀ i₀ saved1 saved2 i) (ho : f.older ≠ .nothing) :
    0 < p.rep2 :=
  h.cursor.cut.second_pos (h.nothing_saved ho).1 (h.nothing_saved ho).2 (h.told ho)

theorem repeats_good (hp : f.Placed i j) (e : Entries) (fuel : Nat) :
    ∀ (pos rep1 rep2 : Nat) (seqs : Array Seq), 0 < rep1 →
      Progress.Good f j r₀ i₀ saved1 saved2 i ⟨e, false, pos, pos, rep1, rep2, seqs⟩ →
      let r := repeats (scan f j) e pos rep1 rep2 seqs fuel
      r.Good f j r₀ i₀ saved1 saved2 i ∧ pos ≤ r.pos ∧ r.entries = e := by
  have hlim := limit_le f j
  induction fuel with
  | zero => exact fun pos rep1 rep2 seqs _ hg => ⟨hg, le_rfl, rfl⟩
  | succ fuel ih =>
    intro pos rep1 rep2 seqs h1 hg
    rw [repeats]
    have hspec : ∀ n, (if pos ≤ (scan f j).limit then (scan f j).repetition pos rep2 else 0) = n →
        n = 0 ∨ 4 ≤ n ∧ pos + n ≤ j ∧ Within f.bottom f.span pos rep2 ∧ Agree f.content pos (pos - rep2) n := by
      intro n hn
      split at hn
      · have hi : i ≤ pos := hg.le_pos
        have h0 := hp.pos_of_le hi
        exact repetition_spec hp hi (by omega) hg.cursor.second hg.second_pos hn
      · exact .inl hn.symm
    generalize (if pos ≤ (scan f j).limit then (scan f j).repetition pos rep2 else 0) = n at hspec ⊢
    split
    · exact ⟨hg, le_rfl, rfl⟩
    rename_i hn0
    obtain ⟨h4, hle, hw, ha⟩ := (hspec n rfl).resolve_left hn0
    have hg' : Progress.Good f j r₀ i₀ saved1 saved2 i ⟨e, false, pos + n, pos + n, rep2, rep1, seqs.push ⟨0, 1, n⟩⟩ :=
      ⟨hg.cursor.takeSecond (carried_reaching f) h1 (by omega) rfl hle hw ha,
        by have := hg.le_pos; dsimp only at this ⊢; omega, hg.nothing_saved, hg.told⟩
    grind [Within.pos]

theorem bottom_le_start (hp : f.Placed i j) : f.bottom ≤ f.start := by
  rcases Option.eq_none_or_eq_some f.attached with h | ⟨d, h⟩
  · rw [Finder.bottom_of_none h]
    exact hp.low_le
  · rw [Finder.bottom_of_some h]
    exact (hp.attached h).2.1

/-- A match is extended backwards only over what is in reach. -/
theorem bottom_le_floorOf (hp : f.Placed i j) (m : Nat) : f.bottom ≤ (scan f j).floorOf m := by
  have hstart := bottom_le_start hp
  unfold Scan.floorOf
  split
  · exact hstart
  · rename_i ho
    change f.older = _ at ho
    split
    · rcases Option.eq_none_or_eq_some f.attached with h | ⟨d, h⟩
      · grind [Finder.older]
      simp_all [Finder.bottom_of_some, scan, searchedDict]
    · exact hstart
  · split
    · rcases Option.eq_none_or_eq_some f.attached with h | ⟨d, h⟩
      · rw [Finder.bottom_of_none h]
        exact le_rfl
      · rw [Finder.bottom_of_some h]
        obtain ⟨-, h1, -, h2⟩ := hp.attached h
        exact h2 ▸ h1
    · exact hstart

/-- Taking a match brings the search behind it. -/
theorem take_good (hp : f.Placed i j) (e : Entries) (skipping : Bool)
    (hg : Progress.Good f j r₀ i₀ saved1 saved2 i ⟨e, skipping, pos, anchor, rep1, rep2, seqs⟩)
    (hc : c.Valid f.content f.bottom f.span j anchor rep1) (hpos : pos ≤ c.at_) :
    let r := take (scan f j) e anchor rep1 rep2 seqs c
    r.Good f j r₀ i₀ saved1 saved2 i ∧ c.at_ + 4 ≤ r.pos ∧ r.entries = e := by
  obtain ⟨length, code, at_⟩ := c
  obtain ⟨h4, hle, hsource⟩ := hc
  have hi : i ≤ pos := hg.le_pos
  dsimp only at h4 hle hsource hpos ⊢
  unfold take
  rcases hsource with ⟨rfl, ha, hw, hagree⟩ | ⟨o, rfl, ha, hw, hagree⟩
  · have hg' : Progress.Good f j r₀ i₀ saved1 saved2 i
        ⟨e, false, at_ + length, at_ + length, rep1, rep2, seqs.push ⟨at_ - anchor, 1, length⟩⟩ :=
      ⟨hg.cursor.takeFirst (carried_reaching f) ha (by omega) rfl (by dsimp only; omega) hle hw hagree,
        by dsimp only; omega, hg.nothing_saved, hg.told⟩
    grind [repeats_good, Within.pos]
  · dsimp only
    rw [Nat.add_sub_cancel]
    have hfloor := bottom_le_floorOf hp (at_ - o)
    have hb := agree_backward (scan f j).b at_ anchor (at_ - o) ((scan f j).floorOf (at_ - o))
    have hble := backward_le (scan f j).b at_ anchor (at_ - o) ((scan f j).floorOf (at_ - o))
    generalize backward (scan f j).b at_ anchor (at_ - o) ((scan f j).floorOf (at_ - o)) = back at hb hble ⊢
    have hw' : Within f.bottom f.span (at_ - back) o := ⟨hw.pos, by have := hw.low_le; omega, hw.le_window⟩
    have hagree' : Agree f.content (at_ - back) (at_ - back - o) (length + back) := by
      rw [add_comm, show at_ - back - o = at_ - o - back by omega]
      refine hb.append ?_
      rwa [Nat.sub_add_cancel (by omega), Nat.sub_add_cancel (by omega)]
    have hg' : Progress.Good f j r₀ i₀ saved1 saved2 i
        ⟨e, false, at_ + length, at_ + length, o, rep1, seqs.push ⟨at_ - back - anchor, o + 3, length + back⟩⟩ :=
      ⟨hg.cursor.take (carried_reaching f) (by omega) (by omega) (show at_ + length = at_ - back + (length + back) by omega)
        (by dsimp only; omega) hle hw' hagree', by dsimp only; omega, hg.nothing_saved, hg.told⟩
    grind [repeats_good, Within.pos]

structure Progress.Done (f : Finder) (j : Nat) (Inv : Entries → Nat → Prop) (r₀ : Reps) (i₀ saved1 saved2 : Nat)
    (p : Progress) : Prop where
  cut : Cut f.content ⟨f.bottom, f.span, r₀, i₀, saved1, saved2⟩ p.seqs p.anchor p.rep1 p.rep2
  anchor_le : p.anchor ≤ j
  kept : ∃ n ≤ j, Inv p.entries n

theorem parseFrom_done (hp : f.Placed i j)
    (hs : Searcher.Sound (scan f j).search f i j Inv) (fuel : Nat) :
    ∀ (p : Progress) (n : Nat), p.Good f j r₀ i₀ saved1 saved2 i → Inv p.entries n → n ≤ p.pos → n ≤ j →
      (parseFrom (scan f j) p fuel).Done f j Inv r₀ i₀ saved1 saved2 := by
  have hlim := limit_le f j
  induction fuel with
  | zero => exact fun p n hg hI _ hj => ⟨hg.cursor.cut, hg.cursor.anchor_le_stop, n, hj, hI⟩
  | succ fuel ih =>
    rintro ⟨e, skipping, pos, anchor, rep1, rep2, seqs⟩ n hg hI hn hj
    have hi : i ≤ pos := hg.le_pos
    have ha : anchor ≤ pos := hg.cursor.anchor_le
    have hcar {q : Nat} (hq : pos ≤ q) (h : 0 < rep1) : Carried f q rep1 := (carried_reaching f).mono (hg.cursor.first h) hq
    -- a choice that is taken brings the search behind it
    have htake {e' : Entries} {c : Choice} {m : Nat} (hc : c.Valid f.content f.bottom f.span j anchor rep1) (hat : pos ≤ c.at_)
        (hI' : Inv e' m) (hm : m ≤ c.at_ + 3) :
        (parseFrom (scan f j) (take (scan f j) e' anchor rep1 rep2 seqs c) fuel).Done f j Inv r₀ i₀ saved1 saved2 := by
      have hle := hc.le_stop
      have h4 := hc.least
      obtain ⟨h1, h2, h3⟩ := take_good hp e' skipping ⟨hg.cursor, hg.le_pos, hg.nothing_saved, hg.told⟩ hc hat
      exact ih _ m h1 (by rw [h3]; exact hI') (by omega) (by omega)
    have hstep := @hs.step
    rw [parseFrom]
    generalize (scan f j).search = search at hstep ⊢
    dsimp only at hI hn ⊢
    split
    · exact ⟨hg.cursor.cut, hg.cursor.anchor_le_stop, n, hj, hI⟩
    have hrep := repetition_spec hp (show i ≤ pos + 1 by omega) (by omega) (hcar (by omega)) hg.first_pos rfl
    generalize (scan f j).repetition (pos + 1) rep1 = k at hrep ⊢
    have hvalid (h0 : k ≠ 0) : (⟨k, 1, pos + 1⟩ : Choice).Valid f.content f.bottom f.span j anchor rep1 := by
      obtain ⟨h1, h2, h3, h4⟩ := hrep.resolve_left h0
      exact ⟨h1, h2, .inl ⟨rfl, by dsimp only; omega, h3, h4⟩⟩
    split
    · grind
    obtain ⟨hI', hb⟩ := hstep skipping hI hn hi (by omega)
    generalize search e pos skipping = r at hI' hb ⊢
    obtain ⟨e', best⟩ := r
    have hc : ∀ c : Choice, (if k < best.length then ⟨best.length, best.code, pos⟩ else ⟨k, 1, pos + 1⟩ : Choice) = c →
        4 ≤ c.length → c.Valid f.content f.bottom f.span j anchor rep1 ∧ pos ≤ c.at_ := by
      rintro c rfl
      split
      · intro h4
        obtain ⟨o, h1, h2, h3, h5⟩ := hb h4
        exact ⟨⟨h4, h5, .inr ⟨o, h1, ha, h2, h3⟩⟩, le_rfl⟩
      · grind
    generalize (if k < best.length then ⟨best.length, best.code, pos⟩ else ⟨k, 1, pos + 1⟩ : Choice) = c at hc ⊢
    split
    · generalize (pos - anchor) / 2 ^ searchStrength = step
      exact ih _ (pos + 1) ⟨hg.cursor.move (carried_reaching f) (by dsimp only; omega), by dsimp only; omega, hg.nothing_saved, hg.told⟩
        hI' (by dsimp only; omega) (by omega)
    obtain ⟨hv, hat⟩ := hc c rfl (by omega)
    split
    · grind
    · obtain ⟨hv', hat', m, hI'', hm⟩ := improve_spec hp hs hg.first_pos skipping ((scan f j).stop - pos) e' pos (pos + 1) c hI'
        le_rfl hi ha hat (hcar le_rfl) hv
      exact htake hv' hat' hI'' hm

/-- An offset that is not set aside at the start of a block may be carried along. -/
theorem carried_of_setAside (hp : f.Placed i j) (hr : f.Told i r reps) (hi : i ≤ pos)
    (hj : pos ≤ j) (ho : o = reps.first ∨ o = reps.second) :
    0 < (setAside o (f.older = .nothing && pos - f.lowestInSegment pos < o)).1 →
      Carried f pos (setAside o (f.older = .nothing && pos - f.lowestInSegment pos < o)).1 := by
  intro h
  obtain ⟨e, hfar⟩ := setAside_pos h
  rw [e] at h ⊢
  by_cases hs : f.older = .segment
  · exact .inl hs
  refine .inr ?_
  rcases Option.eq_none_or_eq_some f.attached with hn | ⟨d, hd⟩
  · have hle : ¬ f.low < f.start := fun hlt => hs (by rw [Finder.older, if_pos hlt])
    have hnone : f.older = .nothing := by simp [Finder.older, hle, hn]
    have heq : f.start = f.low := by have := hp.low_le; omega
    simp only [hnone, decide_true, Bool.true_and, decide_eq_false_iff_not, not_lt] at hfar
    rw [Finder.bottom_of_none hn, ← heq]
    exact Finder.within_of_offset (le_trans hj hp.le_size) h hfar
  · obtain ⟨h1, h2, -⟩ := hr.within (by rw [hd]; rfl)
    rcases ho with rfl | rfl
    · rw [← hr.same.first]
      exact h1.mono hi
    · rw [← hr.same.second]
      exact h2.mono hi

theorem run_explained (hp : f.Placed i j)
    (hs : Searcher.Sound (scan f j).search f i j Inv) (hI : Inv e n) (hn : n ≤ i)
    (hr : f.Told i r reps) (g : Finder) :
    (∃ n ≤ j, Inv (run f e reps i j).1 n) ∧
      Parsed.Explained ⟨g, (run f e reps i j).2.1, (run f e reps i j).2.2.1, (run f e reps i j).2.2.2⟩
        f.content f.bottom f.span r i j := by
  have hle := hp.le
  unfold run
  dsimp only
  generalize hpos : (if (decide (i = f.start) && _) = true then i + 1 else i) = pos
  have hpos' : i ≤ pos ∧ pos ≤ i + 1 := by
    generalize (decide (i = f.start) && _) = atStart at hpos
    cases atStart
    · simp_all
    · simp only [if_true] at hpos
      omega
  have hcut := Cut.start f.content f.bottom f.span i hr.same hr.settled (f.older = .nothing && pos - f.lowestInSegment pos < reps.first)
    (f.older = .nothing && pos - f.lowestInSegment pos < reps.second)
  have hsaved (o : Nat) (ho : f.older ≠ .nothing) :
      (setAside o (f.older = .nothing && pos - f.lowestInSegment pos < o)).2 = 0 := by simp [setAside, ho]
  have hdone : (parseFrom (scan f j) ⟨e, false, pos, i, (setAside reps.first (f.older = .nothing && pos - f.lowestInSegment pos <
      reps.first)).1, (setAside reps.second (f.older = .nothing && pos - f.lowestInSegment pos < reps.second)).1, #[]⟩ (j - i)).Done
      f j Inv r i (setAside reps.first (f.older = .nothing && pos - f.lowestInSegment pos < reps.first)).2
      (setAside reps.second (f.older = .nothing && pos - f.lowestInSegment pos < reps.second)).2 := by
    by_cases hij : i = j
    · subst hij
      rw [Nat.sub_self]
      exact ⟨hcut, le_rfl, n, hn, hI⟩
    · refine parseFrom_done hp hs _ _ n ⟨⟨hpos'.1, hle, hcut, ?_, ?_⟩, hpos'.1, fun ho => ⟨hsaved _ ho, hsaved _ ho⟩, hr.told⟩ hI
        (le_trans hn hpos'.1) (by omega)
      · exact carried_of_setAside hp hr hpos'.1 (by omega) (.inl rfl)
      · exact carried_of_setAside hp hr hpos'.1 (by omega) (.inr rfl)
  exact ⟨hdone.kept, hdone.cut.explained hdone.anchor_le g reps⟩

/-- A lazy strategy with a sound search explains its blocks. -/
theorem parse_explained (hp : f.Placed i j)
    (hs : Searcher.Sound (scan { f with tables := {} } j).search { f with tables := {} } i j Inv)
    (hI : Inv ⟨f.tables.hash, f.tables.chain, f.tables.tags, f.next⟩ n) (hn : n ≤ i)
    (hr : f.Told i r reps) :
    ∃ e : Entries, (∃ n ≤ j, Inv e n) ∧
      (parse f reps i j).finder = { f with
        tables := { hash := e.hash, chain := e.chain, hash3 := f.tables.hash3, tags := e.tags }, next := e.next } ∧
      (parse f reps i j).Explained f.content f.bottom f.span r i j := by
  have hp' : ({ f with tables := {} } : Finder).Placed i j :=
    ⟨hp.first_le, hp.low_le, hp.start_le, hp.le, hp.le_size, hp.attached⟩
  have hr' : ({ f with tables := {} } : Finder).Told i r reps := ⟨hr.same, hr.settled, hr.told, hr.within⟩
  obtain ⟨hkept, hex⟩ := run_explained hp' hs hI hn hr' (parse f reps i j).finder
  exact ⟨_, hkept, rfl, hex⟩

end

end ZstCodec.Match.Lazy
