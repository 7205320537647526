import ZstCodec.Proofs.Match.DoubleFast
import ZstCodec.Proofs.Match.Fill
import ZstCodec.Proofs.Match.Lazy
import ZstCodec.Proofs.Match.Optimal
import ZstCodec.Match.Parse

/-! # Every strategy explains its blocks

What a finder must have in its tables depends on its strategy, and every strategy leaves its tables so. Its sequences
explain the block to a reader who remembers the same offsets. -/

namespace ZstCodec.Match

variable {m n next q : Nat} {tables : Tables}

namespace Finder

/-! ### What the tables hold -/

def entries (f : Finder) : Entries := ⟨f.tables.hash, f.tables.chain, f.tables.tags, f.next⟩

/-- The tables hold positions below `n`, in the way of the strategy. -/
structure Kept (f : Finder) (n : Nat) : Prop where
  plain : f.tuning.strategy.usesTree = false → f.tables.hash.Below n ∧ f.tables.chain.Below n
  late : f.tuning.strategy = .btlazy2 → LateTree.Kept f f.entries n
  optimal : f.tuning.strategy.isOptimal = true → Optimal.Kept f n

/-- The tables of a dictionary hold positions before the segment, in the way of the strategy. -/
structure Beside (f : Finder) (d : Attached) : Prop where
  low : d.low = firstPosition
  tagged : hasTags f.tuning.strategy = true → d.tables.hash.All (Tagged f.start) ∧ d.tables.chain.All (Tagged f.start)
  plain : hasTags f.tuning.strategy = false → f.tuning.strategy.usesTree = false →
    d.tables.hash.Below f.start ∧ d.tables.chain.Below f.start
  tree : f.tuning.strategy.usesTree = true → Tree.Attached.Forested f.content f.start d

/-- A finder whose tables can be searched from `n` on. -/
structure Ready (f : Finder) (n : Nat) : Prop where
  kept : f.Kept n
  ring : f.tuning.strategy.usesTree = true → 2 ≤ f.tuning.chainLog
  beside : ∀ {d}, f.attached = some d → f.Beside d

theorem Ready.two_le {f : Finder} (h : f.Ready n) (ht : f.tuning.strategy.usesTree = true) :
    2 ≤ f.ring := by
  have := h.ring ht
  calc 2 = 2 ^ 1 := rfl
    _ ≤ f.ring := Nat.pow_le_pow_right (by decide) (by omega)

theorem Kept.mono {f : Finder} (h : f.Kept n) (hm : n ≤ m) : f.Kept m where
  plain hs := ⟨(h.plain hs).1.mono hm, (h.plain hs).2.mono hm⟩
  late hs := by
    obtain ⟨n', h0, h1, h2, h3⟩ := h.late hs
    exact ⟨n', h0, le_trans h1 hm, h2, h3⟩
  optimal hs := by
    obtain ⟨⟨n', h0, h1, h2, h3⟩, h4⟩ := h.optimal hs
    exact ⟨⟨n', h0, h1, le_trans h2 hm, h3⟩, h4⟩

theorem Kept.skip {f : Finder} (h : f.Kept n) (hn : f.next ≤ next) : ({ f with next } : Finder).Kept n where
  plain hs := h.plain hs
  late hs := by
    obtain ⟨n', h0, h1, h2, h3⟩ := h.late hs
    exact ⟨n', h0, h1, le_trans h2 hn, h3⟩
  optimal hs := by
    obtain ⟨⟨n', h0, h1, h2, h3⟩, h4⟩ := h.optimal hs
    exact ⟨⟨n', h0, le_trans h1 hn, h2, h3⟩, h4⟩

theorem usesTree_of_isOptimal {s : Strategy} (h : s.isOptimal = true) : s.usesTree = true := by
  revert h
  cases s <;> decide

/-- A strategy without trees has nothing else to keep. -/
theorem Kept.of_plain {f : Finder} (hs : f.tuning.strategy.usesTree = false) (hh : f.tables.hash.Below n)
    (hc : f.tables.chain.Below n) : f.Kept n where
  plain _ := ⟨hh, hc⟩
  late h := by rw [h] at hs; cases hs
  optimal h := absurd (hs.symm.trans (usesTree_of_isOptimal h)) (by decide)

/-! ### One stretch -/

section

variable {f : Finder} {i j : Nat} {r reps : Reps}

/-- What a strategy makes of a stretch: its tables are kept, and its sequences explained. -/
def Parses (f : Finder) (r : Reps) (i j : Nat) (p : Parsed) : Prop :=
  (∃ tables next, p.finder = { f with tables, next }) ∧ p.finder.Kept j ∧ p.Explained f.content f.bottom f.span r i j

theorem parseFast_explained (hs : f.tuning.strategy = .fast) (hp : f.Placed i j) (hr : f.Ready i) (ht : f.Told i r reps) :
    f.Parses r i j (Fast.parse f reps i j) := by
  have htree : f.tuning.strategy.usesTree = false := by rw [hs]; rfl
  obtain ⟨hh, hc⟩ := hr.kept.plain htree
  obtain ⟨t, hb, hf, hex⟩ := Fast.parse_passes hp hh
    (fun h => ((hr.beside h).tagged (by rw [hs]; rfl)).1.get) ht
  refine ⟨⟨_, _, hf⟩, ?_, hex⟩
  rw [hf]
  exact .of_plain htree hb (hc.mono hp.le)

theorem parseDoubleFast_explained (hs : f.tuning.strategy = .dfast) (hp : f.Placed i j) (hr : f.Ready i) (ht : f.Told i r reps) :
    f.Parses r i j (DoubleFast.parse f reps i j) := by
  have htree : f.tuning.strategy.usesTree = false := by rw [hs]; rfl
  obtain ⟨hh, hc⟩ := hr.kept.plain htree
  obtain ⟨long, short, hb, hf, hex⟩ := DoubleFast.parse_passes hp ⟨hh, hc⟩
    (fun h k => have hd := (hr.beside h).tagged (by rw [hs]; rfl); ⟨hd.1.get k, hd.2.get k⟩) ht
  refine ⟨⟨_, _, hf⟩, ?_, hex⟩
  rw [hf]
  exact .of_plain htree hb.long hb.short

theorem parseLazy_explained (hopt : f.tuning.strategy.isOptimal = false) (htags : hasTags f.tuning.strategy = false)
    (hp : f.Placed i j) (hr : f.Ready i) (ht : f.Told i r reps) : f.Parses r i j (Lazy.parse f reps i j) := by
  have hdict : ∀ {d}, Lazy.searchedDict { f with tables := {} } = some d → f.attached = some d := by
    intro d h
    unfold Lazy.searchedDict at h
    split at h
    · exact h
    · cases h
  have hp' : ({ f with tables := {} } : Finder).Placed i j :=
    ⟨hp.first_le, hp.low_le, hp.start_le, hp.le, hp.le_size, hp.attached⟩
  cases htree : f.tuning.strategy.usesTree with
  | true =>
    have hs : f.tuning.strategy = .btlazy2 := by
      revert htree hopt
      cases f.tuning.strategy <;> decide
    have hsound : Searcher.Sound (Lazy.scan { f with tables := {} } j).search { f with tables := {} } i j
        (LateTree.Kept f) := by
      have e : (Lazy.scan { f with tables := {} } j).search =
          LateTree.search { f with tables := {} } j (Lazy.searchedDict { f with tables := {} }) := by
        simp [Lazy.scan, htree]
      rw [e]
      exact LateTree.search_sound hp' (hr.two_le htree) fun h => ⟨hdict h, (hr.beside (hdict h)).tree htree⟩
    obtain ⟨e, ⟨n, hn, hI⟩, hf, hex⟩ := Lazy.parse_explained hp hsound (hr.kept.late hs) (le_refl i) ht
    refine ⟨⟨_, _, hf⟩, ?_, hex⟩
    rw [hf]
    refine ⟨fun h => ?_, fun _ => ?_, fun h => ?_⟩
    · simp_all
    · obtain ⟨n', h0, h1, h2, h3⟩ := hI
      exact ⟨n', h0, by omega, h2, h3⟩
    simp_all
  | false =>
    have hsound : Searcher.Sound (Lazy.scan { f with tables := {} } j).search { f with tables := {} } i j
        fun e n => e.hash.Below n ∧ e.chain.Below n := by
      have e : (Lazy.scan { f with tables := {} } j).search =
          if f.rows then Row.search { f with tables := {} } j (Lazy.searchedDict { f with tables := {} })
          else Chain.search { f with tables := {} } j (Lazy.searchedDict { f with tables := {} }) := by
        simp [Lazy.scan, htree]
      rw [e]
      split
      · exact Row.search_sound hp' fun h => ⟨hdict h, ((hr.beside (hdict h)).plain htags htree).1⟩
      · exact Chain.search_sound hp' fun h => ⟨hdict h, (hr.beside (hdict h)).plain htags htree⟩
    obtain ⟨e, ⟨n, hn, hI⟩, hf, hex⟩ := Lazy.parse_explained hp hsound (hr.kept.plain htree) (le_refl i) ht
    refine ⟨⟨_, _, hf⟩, ?_, hex⟩
    rw [hf]
    exact .of_plain htree (hI.1.mono hn) (hI.2.mono hn)

theorem parseStretch_explained (hopt : f.tuning.strategy.isOptimal = false) (hp : f.Placed i j) (hr : f.Ready i)
    (ht : f.Told i r reps) : f.Parses r i j (f.parseStretch reps i j) := by
  grind [parseStretch, parseFast_explained, parseDoubleFast_explained, parseLazy_explained, hasTags]

theorem Ready.update (h : f.Ready n) (hk : ({ f with tables, next } : Finder).Kept m) :
    ({ f with tables, next } : Finder).Ready m :=
  ⟨hk, h.ring, fun hd => have hb := h.beside hd; ⟨hb.low, hb.tagged, hb.plain, hb.tree⟩⟩

theorem Placed.update (h : f.Placed i j) : ({ f with tables, next } : Finder).Placed i j :=
  ⟨h.first_le, h.low_le, h.start_le, h.le, h.le_size, h.attached⟩

theorem Told.update (h : f.Told i r reps) (tables : Tables) (next : Nat) : ({ f with tables, next } : Finder).Told i r reps :=
  ⟨h.same, h.settled, h.told, h.within⟩

theorem Placed.sub (h : f.Placed i j) (hi : i ≤ i') (hij : i' ≤ j') (hj : j' ≤ j) : f.Placed i' j' :=
  ⟨h.first_le, h.low_le, le_trans h.start_le hi, hij, le_trans hj h.le_size, h.attached⟩

theorem Placed.first_le_bottom (h : f.Placed i j) : firstPosition ≤ f.bottom := by
  rcases Option.eq_none_or_eq_some f.attached with hn | ⟨d, hd⟩
  · rw [bottom_of_none hn]
    exact h.first_le
  · rw [bottom_of_some hd]
    exact (h.attached hd).1

theorem fillFast_kept (h : f.Kept i) :
    ∃ tables, f.fillFast i = { f with tables } ∧ ({ f with tables } : Finder).Kept i := by
  unfold fillFast
  dsimp only
  split
  · rename_i hs
    have htree : f.tuning.strategy.usesTree = false := by rw [hs]; rfl
    obtain ⟨hh, hc⟩ := h.plain htree
    exact ⟨_, rfl, .of_plain htree (Fast.fillFrom_below _ _ _ hh) hc⟩
  · rename_i hs
    have htree : f.tuning.strategy.usesTree = false := by rw [hs]; rfl
    obtain ⟨hh, hc⟩ := h.plain htree
    obtain ⟨hl, hs⟩ := DoubleFast.fillFrom_below (.ofWidth 8 f.tuning.hashLog 0)
      (.ofWidth (Fast.hashWidth f.tuning) f.tuning.chainLog 0) f.content (i - f.next) f.next _ _ hh hc
    exact ⟨_, rfl, .of_plain htree hl hs⟩
  · exact ⟨f.tables, rfl, h⟩

theorem next_le_catchUpLong (f : Finder) (i : Nat) : f.next ≤ (f.catchUpLong i).next := by
  unfold catchUpLong
  grind

theorem catchUpLong_eq (f : Finder) (i : Nat) : f.catchUpLong i = { f with next := (f.catchUpLong i).next } := by
  unfold catchUpLong
  split <;> rfl

/-- Before each stretch between long matches. -/
theorem catchUpLong_fillFast_ready (h : f.Ready i) :
    ∃ tables next, (f.catchUpLong i).fillFast i = { f with tables, next } ∧ ({ f with tables, next } : Finder).Ready i := by
  rw [catchUpLong_eq]
  have hk := h.kept.skip (f.next_le_catchUpLong i)
  generalize (f.catchUpLong i).next = next at hk ⊢
  obtain ⟨tables, he, hk'⟩ := fillFast_kept hk
  exact ⟨tables, next, he, h.update hk'⟩

end

/-! ### Between long matches -/

/-- Beside a dictionary everything from the first position on is in reach. -/
theorem bottom_of_attached {f : Finder} (hr : f.Ready n) (h : f.attached.isSome) : f.bottom = firstPosition := by
  obtain ⟨d, hd⟩ := Option.isSome_iff_exists.1 h
  rw [bottom_of_some hd]
  exact (hr.beside hd).low

theorem SamePair.push (h : SamePair r reps) (o : Nat) : SamePair (r.push o) (reps.push o) := ⟨rfl, h.first⟩

/-- What is told after a stretch and a long match behind it. -/
theorem Told.long {f : Finder} (hr : f.Ready n)
    (ht : f.Told i r reps) (he : Explains f.content f.bottom f.span r i seqs p r') (hs : SamePair r' reps')
    (hpq : p ≤ q) (hw : Within firstPosition f.span q o) : f.Told q (r'.push o) (reps'.push o) where
  same := SamePair.push hs o
  settled := (he.settled ht.settled).push hw.pos
  told ho := ⟨hw.pos, (he.told (ht.told ho)).1⟩
  within ha := by
    obtain ⟨h1, h2, -⟩ := he.remembers (reaching_within _ _) (ht.within ha)
    refine ⟨?_, h1.mono hpq, h2.mono hpq⟩
    rw [bottom_of_attached hr ha]
    exact hw

theorem parseBetween_explained (hq : q ≤ j) (long : List LongSeq) :
    ∀ (f : Finder) (i : Nat) (r reps : Reps) (seqs : Array Seq), f.tuning.strategy.isOptimal = false → f.Placed i j → f.Ready i →
      f.Told i r reps → Runs f.content firstPosition f.span i long q →
      Explains f.content firstPosition f.span r₀ i₀ seqs.toList i r → (∀ s ∈ seqs, Simple s) →
      let p := f.parseBetween reps i j seqs long
      (∃ tables next, p.finder = { f with tables, next }) ∧ p.finder.Kept j ∧
        p.Explained f.content firstPosition f.span r₀ i₀ j := by
  induction long with
  | nil =>
    intro f i r reps seqs hopt hp hr ht _ he hsimple
    rw [parseBetween]
    obtain ⟨tables, next, hf, hr'⟩ := catchUpLong_fillFast_ready hr
    rw [hf]
    obtain ⟨⟨tables', next', hf'⟩, hk, hrest, r', hex, hsame, hsimple'⟩ :=
      parseStretch_explained (f := { f with tables, next }) hopt hp.update hr' (ht.update tables next)
    refine ⟨⟨tables', next', hf'⟩, hk, hrest, r', ?_, hsame, fun s hs => ?_⟩
    · rw [Array.toList_append]
      exact he.append (hex.weaken hp.first_le_bottom le_rfl)
    grind
  | cons s long ih =>
    intro f i r reps seqs hopt hp hr ht hruns he hsimple
    rw [parseBetween]
    obtain ⟨hfit, hruns⟩ : LongFits f.content firstPosition f.span i s ∧
        Runs f.content firstPosition f.span (i + s.literals + s.length) long q := by
      cases hruns with
      | cons h1 h2 => exact ⟨h1, h2⟩
    have hle := hruns.le
    have hlen := hfit.least
    obtain ⟨tables, next, hf, hr'⟩ := catchUpLong_fillFast_ready hr
    rw [hf]
    obtain ⟨⟨tables', next', hf'⟩, hk, hrest, r', hex, hsame, hsimple'⟩ :=
      parseStretch_explained (f := { f with tables, next }) (j := i + s.literals) hopt
        (Placed.sub hp.update (le_refl i) (by omega) (by omega)) hr' (ht.update tables next)
    generalize parseStretch { f with tables, next } reps i (i + s.literals) = p at hf' hk hrest hex hsame hsimple' ⊢
    obtain ⟨g, reps', part, rest⟩ := p
    subst hf'
    have hex' : Explains f.content firstPosition f.span r i part.toList (i + s.literals - rest) r' :=
      hex.weaken hp.first_le_bottom le_rfl
    have ho := hfit.within.pos
    have hboth : Explains f.content firstPosition f.span r₀ i₀ (seqs ++ part).toList (i + s.literals - rest) r' := by
      rw [Array.toList_append]
      exact he.append hex'
    -- the long match itself, behind the literals that the stretch has left
    have hall := hboth.add (Nat.sub_add_cancel hrest) (resolve_add_three r' rest ho) (by omega) hlen hfit.within hfit.agree
    have htold := Told.long (q := i + s.literals + s.length) hr ht hex hsame (by omega) (hfit.within.mono (by omega))
    exact ih _ _ _ _ _ hopt (Placed.sub hp.update (by omega) (by omega) le_rfl) (hr.update (hk.mono (by omega)))
      ⟨htold.same, htold.settled, htold.told, htold.within⟩
      hruns hall (Cut.simple_push (fun t ht => (Array.mem_append.1 ht).elim (hsimple t) (hsimple' t)) (.inr (by dsimp only; omega)))

/-! ### A block -/

/-- What is found ahead for a block from `i` to `j`. -/
def Foreseen (f : Finder) (i j : Nat) (ahead : Option Ahead) : Prop :=
  ∀ a, ahead = some a → a.pos = 0 ∧ a.within = 0 ∧ ∃ q ≤ j, Runs f.content firstPosition f.span i a.seqs.toList q

/-- Whatever the strategy, a block is explained. Only the strategies that weigh matches tell all three offsets. -/
theorem parse_explained {f : Finder} (hp : f.Placed i j) (hr : f.Ready i)
    (ht : f.Told i r reps) (hexact : f.tuning.strategy.isOptimal = true → r = reps) (ha : f.Foreseen i j ahead) :
    let p := f.parse ahead reps i j
    (∃ tables prices next, p.finder = { f with tables, prices, next }) ∧ p.finder.Kept j ∧ p.rest ≤ j ∧
      ∃ r', Explains f.content firstPosition f.span r i p.seqs.toList (j - p.rest) r' ∧ SamePair r' p.reps ∧
        (f.tuning.strategy.isOptimal = true → r' = p.reps) ∧ (f.tuning.strategy.isOptimal = false → ∀ s ∈ p.seqs, Simple s) := by
  unfold parse
  cases hopt : f.tuning.strategy.isOptimal with
  | true =>
    have htree := usesTree_of_isOptimal hopt
    have hstands : (ahead.getD {}).Stands f.content firstPosition f.span i := by
      cases ahead with
      | none => exact ⟨i, i, rfl, .nil _⟩
      | some a =>
        obtain ⟨h1, h2, q, -, hruns⟩ := ha a rfl
        refine ⟨i, q, by rw [Option.getD_some, h2, add_zero], ?_⟩
        simp_all
    obtain ⟨hf, hk, hrest, he⟩ := Optimal.parse_explained reps
      ⟨hp, hr.two_le htree, fun hd => (hr.beside hd).tree htree⟩ (((hr.kept.mono hp.le).optimal hopt)) hstands
    rw [if_pos rfl]
    generalize Optimal.parse f (ahead.getD {}) reps i j = p at hf hk hrest he ⊢
    obtain ⟨tables, prices, next, hf⟩ := hf
    refine ⟨⟨tables, prices, next, hf⟩, ?_, hrest, p.reps, by rwa [hexact hopt], ⟨rfl, rfl⟩, fun _ => rfl, nofun⟩
    rw [hf] at hk ⊢
    refine ⟨fun h => absurd (htree.symm.trans h) (by decide), fun h => ?_, fun _ => hk⟩
    exact absurd (show f.tuning.strategy = .btlazy2 from h) fun h => by rw [h] at hopt; cases hopt
  | false =>
    cases ahead with
    | none =>
      obtain ⟨⟨tables, next, hf⟩, hk, hrest, r', he, hsame, hsimple⟩ := parseStretch_explained hopt hp hr ht
      exact ⟨⟨tables, f.prices, next, hf⟩, hk, hrest, r', he.weaken hp.first_le_bottom le_rfl, hsame,
        nofun, fun _ => hsimple⟩
    | some a =>
      obtain ⟨-, -, q, hq, hruns⟩ := ha a rfl
      obtain ⟨⟨tables, next, hf⟩, hk, hrest, r', he, hsame, hsimple⟩ :=
        parseBetween_explained hq a.seqs.toList f i r reps #[] hopt hp hr ht hruns (.nil _ _) (by simp)
      grind

end Finder

end ZstCodec.Match
