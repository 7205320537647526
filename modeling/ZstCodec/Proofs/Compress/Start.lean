import ZstCodec.Proofs.Compress.Writer
import ZstCodec.Proofs.Dictionary
import ZstCodec.Compress.Stream

/-! # Where a frame starts

A writer is sound before its first piece, whether it starts from nothing or from a prepared dictionary, whose tables
hold positions of its content only. -/

namespace ZstCodec.Match

variable {rows : Bool} {g : Ground} {windowLow : Nat} {t : Table}

/-! ### Trees keep the size of their table -/

namespace Tree

variable {n : Nat}

theorem update_holds (fuel : Nat) :
    ∀ (i : Nat) (hash t : Table), t.Holds n → (update g h tries windowLow target i hash t fuel).2.Holds n := by
  induction fuel with
  | zero => exact fun i hash t ht => ht
  | succ fuel ih =>
    grind [update, Tree.enter, walk_holds]

end Tree

namespace Finder

variable {f : Finder} {n : Nat}

/-! ### Tables that are taken over -/

/-- Trees of a finder, in a table of full size. -/
structure Grown (f : Finder) (n : Nat) : Prop where
  pos : 0 < n
  le_next : n ≤ f.next
  forested : Tree.Forested f.content f.tables.hash f.tables.chain f.ring n
  holds : f.tables.chain.Holds (2 * f.ring)

theorem Grown.late (h : f.Grown n) (hm : n ≤ m) : LateTree.Kept f f.entries m := by
  obtain ⟨hpos, hnext, ⟨E, ho, hr⟩, hholds⟩ := h
  have hring : 0 < f.ring := Nat.two_pow_pos _
  refine ⟨n, hpos, hm, hnext, E, E, ⟨ho.mono ?_ le_rfl ?_, hholds, ho.lt_top, id, by simp, ?_⟩, hr.imp fun h => ?_⟩
  · unfold LateTree.limitAt
    omega
  · unfold LateTree.limitAt
    omega
  · exact fun ha _ hn => absurd ha hn
  · unfold LateTree.limitAt
    rcases h with h | h
    · exact ⟨by omega, .inl (by omega)⟩
    · exact ⟨ho.lt_top h, .inr h⟩

/-- What a finder has to start from: positions below `n`, in the way of its strategy. -/
theorem Kept.of_tables (hplain : f.tuning.strategy.usesTree = false → f.tables.hash.Below n ∧ f.tables.chain.Below n)
    (htree : f.tuning.strategy.usesTree = true → ∃ m ≤ n, f.Grown m ∧ f.tables.hash3.Below m) (hnodes : f.prices.nodes.size = 0) :
    f.Kept n where
  plain := hplain
  late hs := by
    obtain ⟨m, hm, hg, -⟩ := htree (by rw [hs]; rfl)
    exact hg.late hm
  optimal hs := by
    obtain ⟨m, hm, hg, h3⟩ := htree (usesTree_of_isOptimal hs)
    exact ⟨⟨m, hg.pos, hg.le_next, hm, h3, hg.forested⟩, .inl hnodes⟩

theorem fresh_get (t : Tuning) (rows : Bool) (k : Nat) :
    (fresh t rows).tables.hash.get k = 0 ∧ (fresh t rows).tables.chain.get k = 0 ∧ (fresh t rows).tables.hash3.get k = 0 := by
  grind [fresh, freshTables, Table.get_zeros, Table.get_none]

/-- Trees need no rows. -/
def Rowless (t : Tuning) (rows : Bool) : Prop := t.strategy.usesTree = true → rows = false

theorem rowless_usesRows (t : Tuning) : Rowless t t.usesRows := by
  unfold Rowless Tuning.usesRows
  generalize decide (14 < t.windowLog) = wide
  cases t.strategy <;> cases wide <;> decide

theorem fresh_holds {t : Tuning} (hr : Rowless t rows) (hs : t.strategy.usesTree = true) (hc : 1 ≤ t.chainLog) :
    (fresh t rows).tables.chain.Holds (2 * 2 ^ (t.chainLog - 1)) := by
  have hfast : (t.strategy = .fast || rows) = false := by
    rw [hr hs, Bool.or_false, decide_eq_false_iff_not]
    rintro h
    rw [h] at hs
    cases hs
  have hlog : 2 * 2 ^ (t.chainLog - 1) = 2 ^ t.chainLog := by
    rw [← pow_succ']
    congr 1
    omega
  simp_all [fresh, freshTables, Table.Holds.zeros]

theorem size_emptyContent : emptyContent.size = firstPosition := size_replicate _ _

/-- Tables in which nothing is entered, as large as the tuning asks for. -/
structure Blank (f : Finder) : Prop where
  hash : ∀ k, f.tables.hash.get k = 0
  chain : ∀ k, f.tables.chain.get k = 0
  hash3 : ∀ k, f.tables.hash3.get k = 0
  holds : f.tuning.strategy.usesTree = true → f.tables.chain.Holds (2 * f.ring)

/-- The tables of a fresh finder are blank, whatever its content and its bounds. -/
theorem Blank.of_fresh (hr : Rowless f.tuning rows) (hlog : 2 ≤ f.tuning.chainLog) (h : f.tables = (fresh f.tuning rows).tables) :
    f.Blank := by
  have hget := fresh_get f.tuning rows
  have hholds := fun ht => fresh_holds hr ht (le_of_lt hlog)
  rw [← h] at hget hholds
  exact ⟨fun k => (hget k).1, fun k => (hget k).2.1, fun k => (hget k).2.2, hholds⟩

theorem Blank.grown (h : f.Blank) (hnext : 0 < f.next) (ht : f.tuning.strategy.usesTree = true) : f.Grown 1 :=
  ⟨one_pos, hnext, .of_zero _ _ h.hash _ _, h.holds ht⟩

theorem Blank.kept (h : f.Blank) (hp : f.prices.nodes.size = 0) (hn : 0 < n) (hnext : 0 < f.next) : f.Kept n :=
  .of_tables (fun _ => ⟨fun k => by rwa [h.hash], fun k => by rwa [h.chain]⟩)
    (fun ht => ⟨1, hn, h.grown hnext ht, fun k => by rw [h.hash3]; exact one_pos⟩) hp

/-! ### Filling tables from a dictionary -/

/-- What the tables of a prepared dictionary hold. -/
structure Filled (f : Finder) : Prop where
  tagged : hasTags f.tuning.strategy = true →
    f.tables.hash.All (Tagged f.content.size) ∧ f.tables.chain.All (Tagged f.content.size)
  plain : hasTags f.tuning.strategy = false → f.tuning.strategy.usesTree = false →
    f.tables.hash.Below f.content.size ∧ f.tables.chain.Below f.content.size
  tree : f.tuning.strategy.usesTree = true → ∃ n ≤ f.content.size, f.Grown n

theorem tagged_zero (h : 0 < n) : Tagged n 0 := by
  unfold Tagged
  simpa using h

theorem all_of_zero (h : ∀ k, t.get k = 0) (h0 : P 0) : t.All P := ⟨h0, fun k => by rw [h k]; exact h0⟩

theorem Blank.filled (h : f.Blank) (hs : 0 < f.content.size) (hn : 0 < f.next) : f.Filled where
  tagged _ := ⟨all_of_zero h.hash (tagged_zero hs), all_of_zero h.chain (tagged_zero hs)⟩
  plain _ _ := ⟨fun k => by rwa [h.hash], fun k => by rwa [h.chain]⟩
  tree ht := ⟨1, hs, h.grown hn ht⟩

theorem usesTree_of_hasTags (h : hasTags s = true) : s.usesTree = false := by
  revert h
  cases s <;> decide

section

variable (h : f.Blank) (hlow : 2 ≤ f.low) (hnext : 0 < f.next) (hsize : 0 < f.content.size) (hlog : 2 ≤ f.tuning.chainLog)

include h hlow hnext hsize hlog

theorem fillSlow_filled (htags : hasTags f.tuning.strategy = false) :
    ∃ tables, f.fillSlow f.content.size = { f with tables, next := f.content.size } ∧
      ({ f with tables, next := f.content.size } : Finder).Filled ∧ tables.hash3 = f.tables.hash3 := by
  have hzero {t : Table} (ht : ∀ k, t.get k = 0) : t.Below f.content.size := fun k => by rw [ht k]; exact hsize
  refine ⟨_, rfl, ⟨fun h => absurd (htags.symm.trans h) (by decide), fun _ hs => ?_, fun hs => ?_⟩, ?_⟩
  · rw [if_neg (by rw [hs]; decide)]
    split
    · grind [Row.enter_below, Blank.hash, Blank.chain]
    grind [Chain.enter_below, Blank.hash, Blank.chain]
  · have hring : 2 ≤ f.ring := by
      calc 2 = 2 ^ 1 := rfl
        _ ≤ f.ring := Nat.pow_le_pow_right (by decide) (by omega)
    have hwl : 2 ≤ ({ f with tables := {} } : Finder).lowest (f.content.size - hashReach) :=
      le_trans hlow (Finder.le_within _ _ _)
    obtain ⟨n, hn, hF⟩ := Tree.update_forested (g := (Tree.hunt { f with tables := {} } f.content.size).ground)
      (h := Hasher.ofWidth (Fast.hashWidth f.tuning) f.tuning.hashLog 0) hring hwl le_rfl
      (show f.content.size - hashReach ≤ f.content.size from Nat.sub_le _ _) f.content.size f.next 0 f.tables.hash f.tables.chain hnext
      (Nat.zero_le _) (.of_zero _ _ h.hash _ _)
    rw [if_pos hs]
    refine ⟨f.content.size, le_rfl, hsize, le_rfl, ?_, ?_⟩
    · exact hF.mono (by omega)
    · exact Tree.update_holds _ _ _ _ (h.holds hs)
  grind

theorem fillDictionary_filled :
    ∃ tables, f.fillDictionary = { f with tables, next := f.content.size } ∧
      ({ f with tables, next := f.content.size } : Finder).Filled := by
  have hall {t : Table} (ht : ∀ k, t.get k = 0) : t.All (Tagged f.content.size) := all_of_zero ht (tagged_zero hsize)
  have hfill {tables : Tables} (ht : hasTags f.tuning.strategy = true) (h1 : tables.hash.All (Tagged f.content.size))
      (h2 : tables.chain.All (Tagged f.content.size)) : ({ f with tables, next := f.content.size } : Finder).Filled :=
    ⟨fun _ => ⟨h1, h2⟩, fun h => absurd (ht.symm.trans h) (by decide),
      fun h => absurd ((usesTree_of_hasTags ht).symm.trans h) (by decide)⟩
  unfold fillDictionary
  dsimp only
  rcases hs : f.tuning.strategy
  case fast =>
    exact ⟨_, rfl, hfill (by rw [hs]; rfl) (Fast.fillTagged_all _ _ _ (hall h.hash)) (hall h.chain)⟩
  case dfast =>
    obtain ⟨h1, h2⟩ := DoubleFast.fillTagged_all (Hasher.ofWidth 8 (f.tuning.hashLog + 8) 0)
      (Hasher.ofWidth (Fast.hashWidth f.tuning) (f.tuning.chainLog + 8) 0) f.content f.content.size f.next
      f.tables.hash f.tables.chain (hall h.hash) (hall h.chain)
    exact ⟨_, rfl, hfill (by rw [hs]; rfl) h1 h2⟩
  all_goals
    obtain ⟨tables, he, hfilled, -⟩ := fillSlow_filled h hlow hnext hsize hlog (by rw [hs]; rfl)
    exact ⟨tables, he, hfilled⟩

end

theorem load_filled {t : Tuning} (salt : UInt64) (hash3Log : Nat) (content : ByteArray) (force : Bool)
    (hr : Rowless t rows) (hlog : 2 ≤ t.chainLog) :
    ∃ next dictEnd tables, ({ fresh t rows with salt, hash3Log } : Finder).load content force fillDictionary =
        { fresh t rows with salt, hash3Log, content := emptyContent ++ content, next, dictEnd, tables } ∧
      (dictEnd = 0 ∨ dictEnd = (emptyContent ++ content).size) ∧
      ({ fresh t rows with salt, hash3Log, content := emptyContent ++ content, next, dictEnd, tables } : Finder).Filled := by
  have hfirst : firstPosition = 2 := rfl
  have hsize : (emptyContent ++ content).size = firstPosition + content.size := by
    rw [size_append, size_emptyContent]
  have hend : (if force = true then 0 else (emptyContent ++ content).size) = 0 ∨
      (if force = true then 0 else (emptyContent ++ content).size) = (emptyContent ++ content).size := by
    split
    · exact .inl rfl
    · exact .inr rfl
  have hnext : 0 < (emptyContent ++ content).size - min content.size (mostEntered t) := by omega
  unfold load
  dsimp only
  split
  · exact ⟨_, _, _, rfl, hend, Blank.filled (.of_fresh hr hlog rfl) (show 0 < (emptyContent ++ content).size by omega) hnext⟩
  · obtain ⟨tables, he, hfilled⟩ := fillDictionary_filled (f := { fresh t rows with
        salt, hash3Log, content := emptyContent ++ content
        next := (emptyContent ++ content).size - min content.size (mostEntered t)
        dictEnd := if force = true then 0 else (emptyContent ++ content).size })
      (.of_fresh hr hlog rfl) le_rfl hnext (show 0 < (emptyContent ++ content).size by omega) hlog
    exact ⟨_, _, _, he, hend, hfilled⟩

end Finder

end ZstCodec.Match

namespace ZstCodec.Compress

open Match

variable {windowLog : Nat} {prices : Prices} {s : Settings} {t : Tuning}

/-! ### Prepared dictionaries -/

namespace Dictionary

structure Prepared (d : Dictionary) : Prop where
  usable : d.finder.tuning.Usable
  rowless : Finder.Rowless d.finder.tuning d.finder.rows
  low : d.finder.low = firstPosition
  start : d.finder.start = firstPosition
  le_size : firstPosition ≤ d.finder.content.size
  dictEnd : d.finder.dictEnd = 0 ∨ d.finder.dictEnd = d.finder.content.size
  filled : d.finder.Filled
  pos : Reps.All (0 < ·) d.reps
  within : d.finder.content.size ≠ d.finder.start →
    Reps.All (Within firstPosition d.finder.content.size d.finder.content.size) d.reps

theorem prepared_of_load {content : ByteArray} {size id : Nat} {coding : Block.Coding} {reps : Reps}
    (hu : t.Usable) (hreps : Reps.All (fun o => 0 < o ∧ o ≤ content.size) reps) :
    Prepared ⟨size, id, ({ Finder.fresh t t.usesRows with salt := 0, hash3Log := 0 } : Finder).load content force
      Finder.fillDictionary, coding, reps⟩ := by
  obtain ⟨next, dictEnd, tables, he, hend, hfilled⟩ :=
    Finder.load_filled 0 0 content force (Finder.rowless_usesRows t) hu.two_le_chain
  have hsize : (Finder.emptyContent ++ content).size = firstPosition + content.size := by
    rw [size_append, Finder.size_emptyContent]
  rw [he]
  obtain ⟨h1, h2, h3⟩ := hreps
  refine ⟨hu, Finder.rowless_usesRows t, rfl, rfl, ?_, hend, hfilled, ⟨h1.1, h2.1, h3.1⟩, fun _ => ?_⟩
  · dsimp only
    omega
  · dsimp only
    exact ⟨⟨h1.1, by omega, by omega⟩, ⟨h2.1, by omega, by omega⟩, ⟨h3.1, by omega, by omega⟩⟩

theorem prepare_prepared {type : ZstCodec.Dictionary.ContentType}
    (hs : s.Valid) (hb : b.size < 2 ^ 63) (h : prepare s level b type = .ok d) : d.Prepared ∧ d.size = b.size := by
  have hu := hs.tuning level none hb .preparing
  have hleast : leastSize = 8 := rfl
  have hfirst : firstPosition = 2 := rfl
  unfold prepare at h
  dsimp only at h
  generalize s.tuning level none b.size .preparing = t at hu h
  split at h
  · split at h
    · cases h
    cases h
    have hsize : (Finder.fresh t t.usesRows).content.size = firstPosition := Finder.size_emptyContent
    refine ⟨⟨hu, Finder.rowless_usesRows t, rfl, rfl, ?_, .inl rfl, ?_, ?_, fun hne => absurd hsize hne⟩, rfl⟩
    · exact le_of_eq hsize.symm
    · exact Finder.Blank.filled (.of_fresh (Finder.rowless_usesRows t) hu.two_le_chain rfl) (by dsimp only; omega)
        (show 0 < firstPosition by decide)
    · exact ⟨one_pos, show 0 < 4 by decide, show 0 < 8 by decide⟩
  split at h
  · cases h
  split at h
  · cases h
    exact ⟨prepared_of_load hu ⟨⟨by decide, by dsimp only [Reps.start]; omega⟩, ⟨by decide, by dsimp only [Reps.start]; omega⟩,
      ⟨by decide, by dsimp only [Reps.start]; omega⟩⟩, rfl⟩
  · obtain ⟨e, he, h⟩ := ok_of_bind h
    cases h
    obtain ⟨used, i₁, i₂, i₃, -, -, -, -, -, hreps⟩ := ZstCodec.Dictionary.Entropy.read_spec he
    rw [← size_slice_of_le (b := b) (i := e.size) le_rfl] at hreps
    exact ⟨prepared_of_load hu hreps, rfl⟩

end Dictionary

/-! ### Starting -/

theorem longDistanceOf_sorted (hs : s.Valid) (own : Tuning) (windowLog : Nat) (h : firstPosition ≤ start)
    (hl : longDistanceOf s own windowLog start = some l) : l.Sorted start ∧ l.windowLog = windowLog := by
  have hfirst : firstPosition = 2 := rfl
  unfold longDistanceOf at hl
  split at hl
  · cases hl
    refine ⟨⟨h, le_rfl, ?_, ?_⟩, rfl⟩
    · grind [LongDistance.fresh, Settings.Valid.ldmMinMatch]
    · exact .zeros (by omega) _
  · cases hl

theorem startPlain_sound (hs : s.Valid) (pledged : Option Nat) :
    (startPlain s pledged).Sound .start (startPlain s pledged).finder.content.size := by
  have hfirst : firstPosition = 2 := rfl
  have hu := hs.tuning s.level pledged (show 0 < 2 ^ 63 by decide) .plain
  have hsize : Finder.emptyContent.size = firstPosition := Finder.size_emptyContent
  unfold startPlain
  generalize s.tuning s.level pledged 0 .plain = t at hu ⊢
  refine .of_pos ⟨le_rfl, le_rfl, ?_, le_rfl, ?_, .inl rfl, nofun, ?_⟩ rfl hu (.refl _ _)
    ⟨by decide, by decide, by decide⟩ nofun (fun hl => ?_)
  · exact le_of_eq hsize.symm
  · exact le_of_eq hsize.symm
  · refine ⟨?_, fun _ => hu.two_le_chain, nofun⟩
    exact Finder.Blank.kept (.of_fresh (Finder.rowless_usesRows t) hu.two_le_chain rfl) rfl
      (show 0 < Finder.emptyContent.size by omega) (show 0 < firstPosition by decide)
  · exact longDistanceOf_sorted hs t t.windowLog (le_of_eq hsize.symm) hl

theorem promisedPrices_nodes (c : Block.Coding) : (promisedPrices c).nodes.size = 0 := by
  unfold promisedPrices
  split <;> rfl

namespace Dictionary

variable {d : Dictionary}

theorem Prepared.tuning (h : d.Prepared) (hd : d.size < 2 ^ 63) (attach : Bool) (pledged : Option Nat)
    (hl : Tuning.windowLogMin ≤ windowLog) (hw : windowLog ≤ Tuning.windowLogMax) :
    (d.tuning attach pledged windowLog).Usable ∧ (d.tuning attach pledged windowLog).strategy = d.finder.tuning.strategy ∧
      (attach = false → (d.tuning attach pledged windowLog).chainLog = d.finder.tuning.chainLog) := by
  cases attach with
  | false => exact ⟨⟨hl, hw, h.usable.two_le_chain⟩, rfl, fun _ => rfl⟩
  | true =>
    obtain ⟨hst, hu⟩ := h.usable.fit_spec pledged hd .attached
    exact ⟨⟨hl, hw, hu.two_le_chain⟩, hst, nofun⟩

theorem Prepared.attach_rests (h : d.Prepared) (hu : t.Usable)
    (hst : t.strategy = d.finder.tuning.strategy) (hp : prices.nodes.size = 0) :
    ({ d.attach t d.finder.rows with prices } : Finder).Rests (d.attach t d.finder.rows).content.size
        (d.attach t d.finder.rows).content.size ∧ (d.attach t d.finder.rows).tuning = t ∧
      ((d.attach t d.finder.rows).attached.isSome → Reps.All (Within firstPosition (d.attach t d.finder.rows).content.size
        (d.attach t d.finder.rows).content.size) d.reps) ∧ firstPosition ≤ (d.attach t d.finder.rows).content.size := by
  have hfirst : firstPosition = 2 := rfl
  have hsize : Finder.emptyContent.size = firstPosition := Finder.size_emptyContent
  have hrowless : Finder.Rowless t d.finder.rows := by
    unfold Finder.Rowless
    rw [hst]
    exact h.rowless
  unfold attach
  dsimp only
  split
  · refine ⟨⟨le_rfl, le_rfl, ?_, le_rfl, le_rfl, .inl rfl, nofun, ⟨?_, fun _ => hu.two_le_chain, nofun⟩⟩,
      rfl, nofun, ?_⟩
    · exact le_of_eq hsize.symm
    · exact Finder.Blank.kept (.of_fresh hrowless hu.two_le_chain rfl) hp
        (show 0 < Finder.emptyContent.size by omega) (show 0 < firstPosition by decide)
    · exact le_of_eq hsize.symm
  · rename_i hne
    have hle := h.le_size
    refine ⟨⟨hle, le_rfl, le_rfl, le_rfl, le_rfl, .inr rfl, fun _ => ?_, ⟨?_, fun _ => hu.two_le_chain, ?_⟩⟩,
      rfl, fun _ => h.within hne, hle⟩
    · grind
    · exact Finder.Blank.kept (.of_fresh hrowless hu.two_le_chain rfl) hp
        (show 0 < d.finder.content.size by omega) (show 0 < d.finder.content.size by omega)
    · rintro a ⟨⟩
      refine ⟨h.start, fun ht => ?_, fun ht htree => ?_, fun htree => ?_⟩
      · exact h.filled.tagged (hst ▸ ht)
      · exact h.filled.plain (hst ▸ ht) (hst ▸ htree)
      · obtain ⟨n, hn, hg⟩ := h.filled.tree (hst ▸ htree)
        have hch := h.usable.two_le_chain
        refine ⟨h.start ▸ hle, le_rfl, ?_, hg.forested.mono hn⟩
        calc 2 = 2 ^ 1 := rfl
          _ ≤ 2 ^ (d.finder.tuning.chainLog - 1) := Nat.pow_le_pow_right (by decide) (by omega)

theorem untagged_below {t : Table} (h : t.All (Tagged n)) : (t.map (· / Fast.tagSize)).Below n := fun k => by
  rw [Table.get_map (· / Fast.tagSize) (Nat.zero_div _)]
  exact h.get k

theorem Prepared.copy_rests (h : d.Prepared) (hu : t.Usable)
    (hst : t.strategy = d.finder.tuning.strategy) (hch : t.chainLog = d.finder.tuning.chainLog) (hp : prices.nodes.size = 0) :
    ({ d.copy t with prices } : Finder).Rests (d.copy t).content.size (d.copy t).content.size := by
  have hle := h.le_size
  unfold copy
  refine ⟨le_of_eq h.low.symm, ?_, ?_, le_rfl, le_rfl, h.dictEnd, nofun, ⟨?_, fun _ => hu.two_le_chain, nofun⟩⟩
  · exact le_of_eq (h.low.trans h.start.symm)
  · simp_all [start]
  · unfold Tables.untagged
    rw [show hasTags t.strategy = hasTags d.finder.tuning.strategy by rw [hst]]
    refine .of_tables (fun htree => ?_) (fun htree => ?_) hp
    · have htree : d.finder.tuning.strategy.usesTree = false := by rw [← hst]; exact htree
      cases ht : hasTags d.finder.tuning.strategy with
      | true =>
        obtain ⟨h1, h2⟩ := h.filled.tagged ht
        simp_all [untagged_below]
      | false => exact h.filled.plain ht htree
    · have htree : d.finder.tuning.strategy.usesTree = true := by rw [← hst]; exact htree
      obtain ⟨n, hn, hg⟩ := h.filled.tree htree
      have htags : hasTags d.finder.tuning.strategy = false := by
        cases ht : hasTags d.finder.tuning.strategy with
        | true => simp_all [Finder.usesTree_of_hasTags]
        | false => rfl
      rw [htags]
      refine ⟨n, hn, ⟨hg.pos, hg.le_next, ?_, ?_⟩, fun k => ?_⟩
      · show Tree.Forested _ _ _ (2 ^ (t.chainLog - 1)) n
        rw [hch]
        exact hg.forested
      · show Table.Holds _ (2 * 2 ^ (t.chainLog - 1))
        rw [hch]
        exact hg.holds
      · exact (Finder.fresh_get t d.finder.rows k).2.2.symm ▸ hg.pos

end Dictionary

theorem startBeside_sound (hs : s.Valid) (h : d.Prepared) (hd : d.size < 2 ^ 63) (own : Tuning)
    (attach : Bool) (pledged : Option Nat) (hl : Tuning.windowLogMin ≤ windowLog)
    (hw : windowLog ≤ Tuning.windowLogMax) :
    (startBeside s d own attach windowLog pledged).Sound d.reps
      (startBeside s d own attach windowLog pledged).finder.content.size := by
  obtain ⟨hu, hst, hch⟩ := h.tuning hd attach pledged hl hw
  have hp := promisedPrices_nodes d.coding
  unfold startBeside
  generalize d.tuning attach pledged windowLog = t at hu hst hch ⊢
  cases attach with
  | true =>
    obtain ⟨hrests, ht, hwithin, hle⟩ := h.attach_rests hu hst hp
    exact .of_pos hrests ht.symm (ht.symm ▸ hu) (.refl _ _) h.pos hwithin
      (fun hlong => ht.symm ▸ longDistanceOf_sorted hs own t.windowLog hle hlong)
  | false =>
    have hrests := h.copy_rests hu hst (hch rfl) hp
    exact .of_pos hrests rfl hu (.refl _ _) h.pos nofun fun hlong => longDistanceOf_sorted hs own t.windowLog h.le_size hlong

theorem startWith_sound (hs : s.Valid) (h : d.Prepared) (hd : d.size < 2 ^ 63) (level : Int)
    (pledged : Option Nat) :
    (startWith s level d pledged).Sound d.reps (startWith s level d pledged).finder.content.size := by
  have hu := hs.tuning level pledged hd (if d.attaches s.forceMaxWindow pledged then .attached else .plain)
  exact startBeside_sound hs h hd _ _ pledged hu.le_window hu.window_le

end ZstCodec.Compress
