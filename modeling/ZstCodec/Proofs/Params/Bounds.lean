import ZstCodec.Params.Settings
import ZstCodec.Proofs.Fault

/-! # Bounds of settings and tunings

A parameter is accepted only within its bounds, so every tuning that comes from settings has a window that can be
written down and tables with room for several positions. Fitting keeps all bounds (`fit_spec`). Settings within their
bounds are given back by their numbers, in whatever order these are set (`Valid.set_get`). -/

namespace ZstCodec

variable {v : Int} {dict : Nat}

namespace Tuning

variable {t t' t'' : Tuning}

/-- What searches and headers rely on. -/
structure Usable (t : Tuning) : Prop where
  le_window : windowLogMin ≤ t.windowLog
  window_le : t.windowLog ≤ windowLogMax
  two_le_chain : 2 ≤ t.chainLog

theorem WithinBounds.usable (h : t.WithinBounds) : t.Usable := ⟨h.1.1, h.1.2, Nat.le_trans (by decide) h.2.1.1⟩

/-! ### Fitting -/

/-- Tables have shrunk, not below their least sizes, and all else has stayed. -/
structure Fitted (t t' : Tuning) : Prop where
  searchLog : t'.searchLog = t.searchLog
  minMatch : t'.minMatch = t.minMatch
  targetLength : t'.targetLength = t.targetLength
  strategy : t'.strategy = t.strategy
  chainLog : t'.chainLog ≤ t.chainLog ∧ min t.chainLog chainLogMin ≤ t'.chainLog
  hashLog : t'.hashLog ≤ t.hashLog ∧ min t.hashLog hashLogMin ≤ t'.hashLog

theorem Fitted.refl (t : Tuning) : Fitted t t := ⟨rfl, rfl, rfl, rfl, by omega, by omega⟩

theorem Fitted.trans (h : Fitted t t') (h' : Fitted t' t'') : Fitted t t'' := by
  have hc := h.chainLog
  have hc' := h'.chainLog
  have hh := h.hashLog
  have hh' := h'.hashLog
  exact ⟨h'.searchLog.trans h.searchLog, h'.minMatch.trans h.minMatch, h'.targetLength.trans h.targetLength,
    h'.strategy.trans h.strategy, by omega, by omega⟩

theorem le_dictWindowLog {windowLog : Nat} (hw : windowLog ≤ windowLogMax) (hd : dict + 2 ^ 31 < 2 ^ 64) (size : Nat) :
    windowLog ≤ dictWindowLog windowLog size dict := by
  have hhigh : 2 ^ windowLog ≤ 2 ^ windowLogMax := Nat.pow_le_pow_right (by decide) hw
  have hmax : 2 ^ windowLogMax = 2147483648 := rfl
  have hpos := Nat.two_pow_pos windowLog
  unfold dictWindowLog
  split
  · exact Nat.le_refl _
  split
  · exact Nat.le_refl _
  rw [Nat.mod_eq_of_lt (show dict + 2 ^ windowLog < 2 ^ 64 by omega)]
  dsimp only
  split
  · exact hw
  · have : windowLog ≤ Nat.log2 (dict + 2 ^ windowLog - 1) := (Nat.le_log2 (by omega)).2 (by omega)
    omega

theorem fitWindow_spec (t : Tuning) (size : Option Nat) (dict : Nat) :
    Fitted t (t.fitWindow size dict) ∧ (t.fitWindow size dict).windowLog ≤ t.windowLog ∧
      (hashLogMin ≤ t.windowLog → hashLogMin ≤ (t.fitWindow size dict).windowLog) := by
  unfold fitWindow
  rcases size with _ | n
  · exact ⟨.refl t, Nat.le_refl _, id⟩
  dsimp only
  have hmin : hashLogMin = 6 := rfl
  split
  · refine ⟨{ Fitted.refl t with }, Nat.min_le_left _ _, fun h => ?_⟩
    dsimp only
    split
    · omega
    · have : 5 ≤ Nat.log2 (n + dict - 1) := (Nat.le_log2 (by omega)).2 (by omega)
      omega
  simp_all [Fitted.refl]

theorem fitTables_spec (size : Option Nat) (hw : hashLogMin ≤ t.windowLog) (hw' : t.windowLog ≤ windowLogMax)
    (hd : dict + 2 ^ 31 < 2 ^ 64) : Fitted t (t.fitTables size dict) ∧ (t.fitTables size dict).windowLog = t.windowLog := by
  unfold fitTables
  rcases size with _ | n
  · exact ⟨.refl t, rfl⟩
  have hdw := le_dictWindowLog hw' hd n
  have hmin : hashLogMin = 6 := rfl
  have hmin' : chainLogMin = 6 := rfl
  refine ⟨{ Fitted.refl t with chainLog := ?_, hashLog := ?_ }, rfl⟩
  · grind [cycleLog]
  · dsimp only
    omega

theorem fitTags_spec (t : Tuning) (use : Use) : Fitted t (t.fitTags use) ∧ (t.fitTags use).windowLog = t.windowLog := by
  have hmin : hashLogMin = 6 := rfl
  have hmin' : chainLogMin = 6 := rfl
  unfold fitTags
  split
  · exact ⟨{ Fitted.refl t with chainLog := by dsimp only; omega, hashLog := by dsimp only; omega }, rfl⟩
  · exact ⟨.refl t, rfl⟩

theorem fitRows_spec (t : Tuning) : Fitted t t.fitRows ∧ t.fitRows.windowLog = t.windowLog := by
  have hmin : hashLogMin = 6 := rfl
  unfold fitRows
  split
  · exact ⟨{ Fitted.refl t with hashLog := by dsimp only; omega }, rfl⟩
  · exact ⟨.refl t, rfl⟩

theorem fit_spec (hw : windowLogMin ≤ t.windowLog) (hw' : t.windowLog ≤ windowLogMax) (size : Option Nat)
    (hd : dict + 2 ^ 31 < 2 ^ 64) (use : Use) :
    Fitted t (t.fit size dict use) ∧ windowLogMin ≤ (t.fit size dict use).windowLog ∧ (t.fit size dict use).windowLog ≤ windowLogMax := by
  have hmin : windowLogMin = 10 := rfl
  have hmin' : hashLogMin = 6 := rfl
  unfold fit
  dsimp only
  generalize (if use = .preparing ∧ dict ≠ 0 ∧ size = none then some 513 else size) = size
  have hd' : (if use = .attached then 0 else dict) + 2 ^ 31 < 2 ^ 64 := by split <;> omega
  generalize (if use = .attached then 0 else dict) = dict at hd' ⊢
  obtain ⟨h₁, hw₁, hw₁'⟩ := t.fitWindow_spec size dict
  obtain ⟨h₂, hw₂⟩ := fitTables_spec size (hw₁' (by omega)) (by omega) hd'
  generalize (t.fitWindow size dict).fitTables size dict = t₂ at h₂ hw₂ ⊢
  have h₃ : Fitted t₂ { t₂ with windowLog := max t₂.windowLog windowLogMin } := { Fitted.refl t₂ with }
  obtain ⟨h₄, hw₄⟩ := fitTags_spec { t₂ with windowLog := max t₂.windowLog windowLogMin } use
  obtain ⟨h₅, hw₅⟩ := fitRows_spec (fitTags { t₂ with windowLog := max t₂.windowLog windowLogMin } use)
  dsimp only at hw₄
  exact ⟨h₁.trans (h₂.trans (h₃.trans (h₄.trans h₅))), by omega, by omega⟩

theorem Usable.fit_spec (h : t.Usable) (size : Option Nat) (hd : dict < 2 ^ 63) (use : Use) :
    (t.fit size dict use).strategy = t.strategy ∧ (t.fit size dict use).Usable := by
  obtain ⟨hf, hl, hu⟩ := Tuning.fit_spec h.le_window h.window_le size (show dict + 2 ^ 31 < 2 ^ 64 by omega) use
  have hmin : chainLogMin = 6 := rfl
  have hc := hf.chainLog
  have := h.two_le_chain
  exact ⟨hf.strategy, hl, hu, by omega⟩

theorem WithinBounds.fit (h : t.WithinBounds) (size : Option Nat) (hd : dict + 2 ^ 31 < 2 ^ 64) (use : Use) :
    (t.fit size dict use).WithinBounds := by
  obtain ⟨⟨hw, hw'⟩, ⟨hc, hc'⟩, ⟨hh, hh'⟩, hs, hm, ht⟩ := h
  obtain ⟨hf, hl, hu⟩ := fit_spec hw hw' size hd use
  have hfc := hf.chainLog
  have hfh := hf.hashLog
  refine ⟨⟨hl, hu⟩, ⟨by omega, by omega⟩, ⟨by omega, by omega⟩, ?_, ?_, ?_⟩
  · rwa [hf.searchLog]
  · rwa [hf.minMatch]
  · rwa [hf.targetLength]

/-! ### Levels -/

theorem levelTables_within : ∀ table ∈ levelTables, ∀ t ∈ table, t.WithinBounds := by
  decide

theorem getD_mem_or {α : Type} (xs : Array α) (i : Nat) (d : α) : xs[i]?.getD d ∈ xs ∨ xs[i]?.getD d = d := by
  grind

theorem tableIndex_lt (size : Option Nat) : tableIndex size < 4 := by
  unfold tableIndex
  grind

/-- A level is tuned by fitting a row of its table. -/
theorem ofLevelFor_eq (level : Int) (size : Option Nat) (dict : Nat) (use : Use) :
    ∃ t : Tuning, t.WithinBounds ∧ (level = defaultLevel → t.targetLength = 0) ∧ ofLevelFor level size dict use = t.fit size dict use := by
  have hzero : ∀ i < 4, ((levelTables[i]?.getD #[])[3]?.getD (row 19 12 13 1 6 1 .fast)).targetLength = 0 := by decide
  replace hzero := hzero _ (tableIndex_lt (rowSize size dict use))
  refine ⟨_, ?_, ?_, rfl⟩
  · generalize (if level = 0 then 3 else if level < 0 then 0 else (min level maxLevel).toNat) = index
    have hrow : ((levelTables[tableIndex (rowSize size dict use)]?.getD #[])[index]?.getD (row 19 12 13 1 6 1 .fast)).WithinBounds := by
      rcases getD_mem_or (levelTables[tableIndex (rowSize size dict use)]?.getD #[]) index (row 19 12 13 1 6 1 .fast) with h | h
      · grind [getD_mem_or, levelTables_within]
      · rw [h]
        decide
    split
    · have hlow : minLevel = -131072 := rfl
      have hhigh : targetLengthMax = 131072 := rfl
      exact ⟨hrow.1, hrow.2.1, hrow.2.2.1, hrow.2.2.2.1, hrow.2.2.2.2.1, by dsimp only; omega⟩
    · exact hrow
  · rintro rfl
    exact hzero

theorem ofLevelFor_within (level : Int) (size : Option Nat) (hd : dict + 2 ^ 31 < 2 ^ 64) (use : Use) :
    (ofLevelFor level size dict use).WithinBounds := by
  obtain ⟨t, ht, -, heq⟩ := ofLevelFor_eq level size dict use
  rw [heq]
  exact ht.fit size hd use

theorem targetLength_defaultLevel (size : Option Nat) (hd : dict + 2 ^ 31 < 2 ^ 64) (use : Use) :
    (ofLevelFor defaultLevel size dict use).targetLength = 0 := by
  obtain ⟨t, ht, hzero, heq⟩ := ofLevelFor_eq defaultLevel size dict use
  rw [heq, (fit_spec ht.1.1 ht.1.2 size hd use).1.targetLength]
  exact hzero rfl

/-- Levels beyond the bounds count as the nearest one, and zero as the default. -/
theorem ofLevelFor_clamp (hl : level ≤ maxLevel) (size : Option Nat) (dict : Nat) (use : Use) :
    ofLevelFor (if max level minLevel = 0 then defaultLevel else max level minLevel) size dict use = ofLevelFor level size dict use := by
  have hmin : minLevel = -131072 := rfl
  rcases Int.lt_trichotomy level 0 with h | rfl | h
  · have hneg : max level minLevel < 0 := by omega
    simp_all [ofLevelFor, Int.ne_of_lt]
  · rfl
  grind

end Tuning

namespace Settings

variable {s s' : Settings}

/-- The settings lie within the bounds of their parameters. -/
structure Valid (s : Settings) : Prop where
  level : s.level ≠ 0 ∧ Tuning.minLevel ≤ s.level ∧ s.level ≤ Tuning.maxLevel
  windowLog : s.windowLog = 0 ∨ Tuning.windowLogMin ≤ s.windowLog ∧ s.windowLog ≤ Tuning.windowLogMax
  hashLog : s.hashLog = 0 ∨ Tuning.hashLogMin ≤ s.hashLog ∧ s.hashLog ≤ Tuning.hashLogMax
  chainLog : s.chainLog = 0 ∨ Tuning.chainLogMin ≤ s.chainLog ∧ s.chainLog ≤ Tuning.chainLogMax
  searchLog : s.searchLog = 0 ∨ Tuning.searchLogMin ≤ s.searchLog ∧ s.searchLog ≤ Tuning.searchLogMax
  minMatch : s.minMatch = 0 ∨ Tuning.minMatchMin ≤ s.minMatch ∧ s.minMatch ≤ Tuning.minMatchMax
  targetLength : s.targetLength ≤ Tuning.targetLengthMax
  workers : (s.workers : Int) ≤ workersMax
  jobSize : s.jobSize = 0 ∨ jobSizeMin ≤ s.jobSize ∧ (s.jobSize : Int) ≤ jobSizeMax
  overlapLog : (s.overlapLog : Int) ≤ overlapLogMax
  ldmHashLog : s.ldmHashLog = 0 ∨ 6 ≤ s.ldmHashLog ∧ s.ldmHashLog ≤ 30
  ldmMinMatch : s.ldmMinMatch = 0 ∨ 4 ≤ s.ldmMinMatch ∧ s.ldmMinMatch ≤ 4096
  ldmBucketLog : s.ldmBucketLog = 0 ∨ 1 ≤ s.ldmBucketLog ∧ s.ldmBucketLog ≤ 8
  ldmHashRateLog : s.ldmHashRateLog = 0 ∨ 0 ≤ s.ldmHashRateLog ∧ s.ldmHashRateLog ≤ 25

theorem Valid.default : ({} : Settings).Valid := by
  constructor <;> decide

theorem bounded_spec (h : bounded lo hi v = .ok n) : lo ≤ n ∧ n ≤ hi := by
  grind [bounded]

theorem optional_spec (h : optional lo hi v = .ok n) : n = 0 ∨ lo ≤ n ∧ n ≤ hi := by
  unfold optional at h
  split at h
  · cases h
    exact .inl rfl
  · exact .inr (bounded_spec h)

theorem toNat_clamp_le (h : 0 ≤ hi) (v : Int) : ((clamp 0 hi v).toNat : Int) ≤ hi := by
  rw [clamp]
  omega

/-- Setting one parameter keeps the bounds of all. -/
theorem Valid.set (hs : s.Valid) (h : s.set p v = .ok s') : s'.Valid := by
  cases p with
  | level =>
    cases h
    have hmin : Tuning.minLevel = -131072 := rfl
    have hmax : Tuning.maxLevel = 22 := rfl
    have hdef : Tuning.defaultLevel = 3 := rfl
    have hc : Tuning.minLevel ≤ clamp Tuning.minLevel Tuning.maxLevel v ∧ clamp Tuning.minLevel Tuning.maxLevel v ≤ Tuning.maxLevel := by
      rw [clamp]
      omega
    refine { hs with level := ?_ }
    dsimp only
    split <;> omega
  | workers =>
    cases h
    exact { hs with workers := toNat_clamp_le (by decide) v }
  | overlapLog =>
    cases h
    exact { hs with overlapLog := toNat_clamp_le (by decide) v }
  | jobSize =>
    cases h
    have hmin : jobSizeMin = 524288 := rfl
    have hmax : jobSizeMax = 1073741824 := rfl
    refine { hs with jobSize := ?_ }
    dsimp only [clamp]
    split <;> omega
  | contentSizeFlag | checksumFlag | dictIdFlag | forceMaxWindow =>
    cases h
    exact { hs with }
  | format | strategy | longDistance =>
    obtain ⟨n, -, h⟩ := ok_of_bind h
    cases h
    exact { hs with }
  | targetLength =>
    obtain ⟨n, hn, h⟩ := ok_of_bind h
    cases h
    exact { hs with targetLength := (bounded_spec hn).2 }
  | windowLog | hashLog | chainLog | searchLog | minMatch | ldmHashLog | ldmMinMatch | ldmBucketLog | ldmHashRateLog =>
    obtain ⟨n, hn, h⟩ := ok_of_bind h
    cases h
    replace hn := optional_spec hn
    cases hs
    constructor <;> assumption

theorem Valid.ofTuning (h : t.WithinBounds) : (ofTuning t).Valid :=
  { Valid.default with
    windowLog := .inr h.1
    chainLog := .inr h.2.1
    hashLog := .inr h.2.2.1
    searchLog := .inr h.2.2.2.1
    minMatch := .inr h.2.2.2.2.1
    targetLength := h.2.2.2.2.2 }

/-! ### Reading back -/

/-- The settings `s` with one parameter as in `u`. -/
def adopt (u s : Settings) : Parameter → Settings
  | .format => { s with format := u.format }
  | .level => { s with level := u.level }
  | .windowLog => { s with windowLog := u.windowLog }
  | .hashLog => { s with hashLog := u.hashLog }
  | .chainLog => { s with chainLog := u.chainLog }
  | .searchLog => { s with searchLog := u.searchLog }
  | .minMatch => { s with minMatch := u.minMatch }
  | .targetLength => { s with targetLength := u.targetLength }
  | .strategy => { s with strategy := u.strategy }
  | .contentSizeFlag => { s with contentSizeFlag := u.contentSizeFlag }
  | .checksumFlag => { s with checksumFlag := u.checksumFlag }
  | .dictIdFlag => { s with dictIdFlag := u.dictIdFlag }
  | .workers => { s with workers := u.workers }
  | .jobSize => { s with jobSize := u.jobSize }
  | .overlapLog => { s with overlapLog := u.overlapLog }
  | .forceMaxWindow => { s with forceMaxWindow := u.forceMaxWindow }
  | .longDistance => { s with longDistance := u.longDistance }
  | .ldmHashLog => { s with ldmHashLog := u.ldmHashLog }
  | .ldmMinMatch => { s with ldmMinMatch := u.ldmMinMatch }
  | .ldmBucketLog => { s with ldmBucketLog := u.ldmBucketLog }
  | .ldmHashRateLog => { s with ldmHashRateLog := u.ldmHashRateLog }

theorem bounded_of_le (h : lo ≤ n ∧ n ≤ hi) : bounded lo hi n = .ok n := by
  simp_all [bounded.eq_1]

theorem optional_of_le (h : n = 0 ∨ lo ≤ n ∧ n ≤ hi) : optional lo hi n = .ok n := by
  rcases h with rfl | h
  · rfl
  simp_all [optional, bounded_of_le]

theorem clamp_of_le {lo hi : Int} {n : Nat} (hlo : lo ≤ n) (hhi : n ≤ hi) : (clamp lo hi n).toNat = n := by
  rw [clamp]
  omega

/-- Whatever was set before, the number of a parameter sets it as it was read, within its bounds. -/
theorem Valid.set_get {u : Settings} (h : u.Valid) (s : Settings) (p : Parameter) : s.set p (u.get p) = .ok (u.adopt s p) := by
  cases p with
  | format => rw [get, adopt]; cases u.format <;> rfl
  | level =>
    obtain ⟨h0, hl, hu⟩ := h.level
    have hclamp : clamp Tuning.minLevel Tuning.maxLevel u.level = u.level := by rw [clamp]; omega
    simp [Settings.set, get, adopt, hclamp, h0, pure, Except.pure]
  | targetLength => simp only [Settings.set, get, adopt, bounded_of_le ⟨Nat.zero_le _, h.targetLength⟩]; rfl
  | strategy =>
    rw [get, adopt]
    rcases u.strategy with _ | t
    · rfl
    · cases t <;> rfl
  | contentSizeFlag => rw [get, adopt]; cases u.contentSizeFlag <;> rfl
  | checksumFlag => rw [get, adopt]; cases u.checksumFlag <;> rfl
  | dictIdFlag => rw [get, adopt]; cases u.dictIdFlag <;> rfl
  | forceMaxWindow => rw [get, adopt]; cases u.forceMaxWindow <;> rfl
  | workers => simp only [Settings.set, get, adopt, clamp_of_le (Int.natCast_nonneg _) h.workers]; rfl
  | jobSize =>
    rcases h.jobSize with h0 | ⟨hl, hu⟩
    · simp [Settings.set, get, adopt, h0, pure, Except.pure]
    · have hmin : jobSizeMin = 524288 := rfl
      simp only [Settings.set, get, adopt, clamp_of_le hl hu, if_neg (show ¬ (u.jobSize : Int) = 0 by omega)]
      rfl
  | overlapLog => simp only [Settings.set, get, adopt, clamp_of_le (Int.natCast_nonneg _) h.overlapLog]; rfl
  | longDistance => rw [get, adopt]; cases u.longDistance <;> rfl
  | windowLog | hashLog | chainLog | searchLog | minMatch | ldmHashLog | ldmMinMatch | ldmBucketLog | ldmHashRateLog =>
    cases h
    exact bind_of_ok (optional_of_le ‹_›)

/-! ### Tunings -/

/-- Settings made of a tuning replace any other, as long as that searches to the end. -/
theorem override_of_within (h : t.WithinBounds) (h0 : t₀.targetLength = 0) : (ofTuning t).override t₀ = t := by
  obtain ⟨⟨hw, -⟩, ⟨hc, -⟩, ⟨hh, -⟩, ⟨hs, -⟩, ⟨hm, -⟩, -⟩ := h
  have hlength : (if t.targetLength = 0 then 0 else t.targetLength) = t.targetLength := by split <;> omega
  have hne {lo n : Nat} (h : lo + 1 ≤ n) : n ≠ 0 := by omega
  dsimp only [override, ofTuning]
  rw [h0, hlength, if_neg (hne hw), if_neg (hne hc), if_neg (hne hh), if_neg (hne hs), if_neg (hne hm)]
  rfl

/-- Whatever the settings say, the tuning can be used. -/
theorem Valid.tuning (hs : s.Valid) (level : Int) (size : Option Nat) (hd : dict < 2 ^ 63) (use : Tuning.Use) :
    (s.tuning level size dict use).Usable := by
  have hmin : Tuning.windowLogMin = 10 := rfl
  have hmax : Tuning.windowLogMax = 31 := rfl
  have hlong : longWindowLog = 27 := rfl
  have hchain : Tuning.chainLogMin = 6 := rfl
  unfold Settings.tuning
  dsimp only
  have hlevel := (Tuning.ofLevelFor_within level size (show dict + 2 ^ 31 < 2 ^ 64 by omega) use).usable
  generalize Tuning.ofLevelFor level size dict use = t at hlevel ⊢
  have hlong : (if s.longDistance = .on then { t with windowLog := longWindowLog } else t).Usable := by
    split
    · exact ⟨by dsimp only; omega, by dsimp only; omega, hlevel.two_le_chain⟩
    · exact hlevel
  generalize (if s.longDistance = .on then { t with windowLog := longWindowLog } else t) = t at hlong ⊢
  obtain ⟨h1, h2, h3⟩ := hlong
  refine (Tuning.Usable.fit_spec ⟨?_, ?_, ?_⟩ size hd use).2
  all_goals
    have hw := hs.windowLog
    have hc := hs.chainLog
    dsimp only [override]
    split <;> omega

end Settings

end ZstCodec
