import ZstCodec.Proofs.Session.RoundTrip

/-! # Settings that are read and made again

The numbers of settings make the same settings again (`settingsOf_showSettings`). A level makes settings within their
bounds for every size (`settingsOfLevel_within`), which compress as the level itself does
(`compressAtOnce_settingsOfLevel`): what fitting leaves at zero is zero at the default level, too. -/

namespace ZstCodec.Session

open Compress (Context)

variable {u : Settings} {a : Args} {processors level : Int}

/-! ### Numbers -/

theorem less_zero (n : Nat) : (Value.int n).less 0 = .ok false := by
  have h : compare (n : Int) (0 * 10 ^ 0) ≠ .lt := by
    rw [Int.zero_mul]
    exact fun h => absurd (compare_lt_iff_lt.1 h) (by omega)
  show Except.ok (compare (n : Int) (0 * 10 ^ 0) == .lt) = _
  rw [beq_false_of_ne h]

theorem isNumber_int (h : n ≠ m) : (Value.int n).isNumber m = false := by
  have hc : compare n (m * 10 ^ 0) ≠ .eq := by
    rw [Int.pow_zero, Int.mul_one]
    exact fun he => h (compare_eq_iff_eq.1 he)
  unfold Value.isNumber
  split
  next he => exact absurd (Except.ok.inj he) hc
  next => rfl

theorem toWord_int (h : -2 ^ 31 ≤ n ∧ n < 2 ^ 31) : (Value.int n).toWord = .ok n := if_pos h

theorem word_of_le {n lo hi : Nat} (h : n = 0 ∨ lo ≤ n ∧ n ≤ hi) (hhi : hi < 2 ^ 31) : -2 ^ 31 ≤ (n : Int) ∧ (n : Int) < 2 ^ 31 := by
  omega

/-! ### Reading back -/

theorem get_word (h : u.Valid) (p : Parameter) : (-2 ^ 31 ≤ u.get p ∧ u.get p < 2 ^ 31) ∧ (p ≠ .level → u.get p ≠ -1) := by
  have hnat {n : Nat} : (n : Int) ≠ -1 := by omega
  cases p with
  | level =>
    have hmin : Tuning.minLevel = -131072 := rfl
    have hmax : Tuning.maxLevel = 22 := rfl
    have hl := h.level
    exact ⟨by rw [Settings.get]; omega, fun hne => absurd rfl hne⟩
  | format => grind [Settings.get.eq_1]
  | strategy =>
    rw [Settings.get]
    rcases u.strategy with _ | t
    · decide
    · cases t <;> decide
  | contentSizeFlag => grind [Settings.get.eq_10]
  | checksumFlag => grind [Settings.get.eq_11]
  | dictIdFlag => rw [Settings.get]; cases u.dictIdFlag <;> decide
  | forceMaxWindow => rw [Settings.get]; cases u.forceMaxWindow <;> decide
  | longDistance => rw [Settings.get]; cases u.longDistance <;> decide
  | windowLog | hashLog | chainLog | searchLog | minMatch | ldmHashLog | ldmMinMatch | ldmBucketLog | ldmHashRateLog =>
    cases h
    exact ⟨word_of_le ‹_› (by decide), fun _ => hnat⟩
  | targetLength => exact ⟨word_of_le (.inr ⟨Nat.zero_le _, h.targetLength⟩) (by decide), fun _ => hnat⟩
  | workers | jobSize | overlapLog =>
    have hw : Settings.workersMax = 256 := rfl
    have hj : Settings.jobSizeMax = 1073741824 := rfl
    have ho : Settings.overlapLogMax = 9 := rfl
    have h1 := h.workers
    have h2 := h.jobSize
    have h3 := h.overlapLog
    exact ⟨by rw [Settings.get]; omega, fun _ => hnat⟩

theorem setParameter_get (h : u.Valid) (t : Settings) (p : Parameter) : setParameter t p (.int (u.get p)) = .ok (u.adopt t p) := by
  rw [setParameter, toWord_int (get_word h p).1]
  dsimp only [bind, Except.bind]
  rw [h.set_get]
  rfl

/-- What sets parameters as they are in `u`, one after the other, adopts them. -/
theorem foldlM_adopt {α : Type} {f : Settings → α → Except Failure Settings} {q : α → Parameter} (xs : List α)
    (h : ∀ x ∈ xs, ∀ t, f t x = .ok (u.adopt t (q x))) (t : Settings) : xs.foldlM f t = .ok ((xs.map q).foldl u.adopt t) := by
  induction xs generalizing t with
  | nil => rfl
  | cons x xs ih =>
    rw [List.foldlM_cons, h x (.head _)]
    exact ih (fun x hx => h x (.tail _ hx)) _

/-- A compressor works with the settings it was given. -/
theorem copySettings_eq (h : u.Valid) : copySettings u = .ok u := by
  rw [copySettings, foldlM_adopt (q := id) copyOrder fun p _ t => setParameter_get h t p, List.map_id]
  simp [copyOrder, Settings.adopt]

def argument (a : Args) (threads : Value) (e : String × Parameter × Int) : Value :=
  let v := if e.2.1 = .workers then threads else a.getD e.1 (.int e.2.2)
  if minusOneUnsets e.2.1 && v.isNumber (-1) then .int 0 else v

theorem settingsOf_eq (threads : Value) (hcheck : a.check [] (parameterTable.map (·.1)) = .ok ())
    (hthreads : threadCount processors (a.getD "threads" (.int 0)) = .ok threads)
    (h : ∀ e ∈ parameterTable, ∀ t, setParameter t e.2.1 (argument a threads e) = .ok (u.adopt t e.2.1)) :
    settingsOf processors a = .ok u := by
  rw [settingsOf, hcheck]
  rw [hthreads]
  refine (foldlM_adopt parameterTable h {}).trans (congrArg Except.ok ?_)
  simp [parameterTable, Settings.adopt]

theorem lookup_map {β γ : Type} {xs : List (String × β)} (hn : (xs.map (·.1)).Nodup) (f : String × β → γ) {e : String × β} (he : e ∈ xs) :
    (xs.map fun e => (e.1, f e)).lookup e.1 = some (f e) := by
  induction xs with
  | nil => cases he
  | cons x xs ih =>
    grind

/-- Settings are made again from the numbers that they show, also by the copy of a compressor. -/
theorem settingsOf_showSettings (processors : Int) {s : Settings} (h : SettingsMade s) :
    settingsOf processors ((showSettings s).map fun e => (e.1, .int e.2)) = .ok s ∧ copySettings s = .ok s := by
  have hv := h.valid
  refine ⟨?_, copySettings_eq hv⟩
  have hmap : (showSettings s).map (fun e => (e.1, Value.int e.2)) = parameterTable.map fun e => (e.1, Value.int (s.get e.2.1)) := by
    rw [showSettings, List.map_map]
    rfl
  have hget (e) (he : e ∈ parameterTable) (v : Value) :
      Args.getD (parameterTable.map fun e => (e.1, Value.int (s.get e.2.1))) e.1 v = .int (s.get e.2.1) := by
    rw [Args.getD, lookup_map (by decide) (fun e => Value.int (s.get e.2.1)) he]
    rfl
  rw [hmap]
  refine settingsOf_eq (.int s.workers) rfl ?_ fun e he t => ?_
  · exact bind_of_ok (less_zero s.workers)
  · have hvalue : argument (parameterTable.map fun e => (e.1, Value.int (s.get e.2.1))) (.int s.workers) e = .int (s.get e.2.1) := by
      have hown : (if e.2.1 = .workers then Value.int s.workers else .int (s.get e.2.1)) = .int (s.get e.2.1) := by
        split
        next hp => rw [hp]; rfl
        next => rfl
      rw [argument, hget e he, hown]
      by_cases hl : e.2.1 = .level
      · rw [hl]
        rfl
      · simp_all [isNumber_int, get_word]
    simp_all [setParameter_get]

/-- Settings with a short window and jobs that are too small. -/
theorem settingsOf_showSettings_small :
    ∃ s, settingsOf 1 [("window_log", .int 10), ("threads", .int (-1)), ("job_size", .int 1)] = .ok s ∧
      settingsOf 1 ((showSettings s).map fun e => (e.1, .int e.2)) = .ok s ∧ copySettings s = .ok s := by
  have h : settingsOf 1 [("window_log", .int 10), ("threads", .int (-1)), ("job_size", .int 1)] =
    .ok { windowLog := 10, workers := 1, jobSize := 524288, dictIdFlag := false } := rfl
  exact ⟨_, h, settingsOf_showSettings 1 ⟨1, _, .inl h⟩⟩

/-! ### Levels -/

/-- The arguments about headers: none, or all of them. -/
def headerArgs : Option (Bool × Bool × Bool) → Args
  | none => []
  | some (checksum, contentSize, dictId) =>
    [("write_checksum", .bool checksum), ("write_content_size", .bool contentSize), ("write_dict_id", .bool dictId)]

def tunedSettings (t : Tuning) : Option (Bool × Bool × Bool) → Settings
  | none => { Settings.ofTuning t with dictIdFlag := false }
  | some (checksum, contentSize, dictId) =>
    { Settings.ofTuning t with checksumFlag := checksum, contentSizeFlag := contentSize, dictIdFlag := dictId }

theorem tunedSettings_valid (h : t.WithinBounds) (options : Option (Bool × Bool × Bool)) : (tunedSettings t options).Valid := by
  rcases options with _ | ⟨checksum, contentSize, dictId⟩
  · exact { Settings.Valid.ofTuning h with }
  · exact { Settings.Valid.ofTuning h with }

theorem settingsOf_tuningArgs (h : t.WithinBounds) (options : Option (Bool × Bool × Bool)) :
    settingsOf processors (headerArgs options ++ (tuningArgs t).map fun e => (e.1, .int e.2)) = .ok (tunedSettings t options) := by
  have hget := setParameter_get (tunedSettings_valid h options)
  have hrank : ¬ (minusOneUnsets .strategy && (Value.int t.strategy.rank).isNumber (-1)) = true := by
    rw [isNumber_int (by omega)]
    decide
  rcases options with _ | ⟨checksum, contentSize, dictId⟩ <;>
    refine settingsOf_eq (.int 0) rfl rfl ?_ <;>
    simp only [parameterTable, List.forall_mem_cons] <;>
    exact ⟨fun s => hget s .workers, fun s => hget s .format, fun s => rfl, fun s => hget s .windowLog, fun s => hget s .hashLog,
      fun s => hget s .chainLog, fun s => hget s .searchLog, fun s => hget s .minMatch, fun s => hget s .targetLength, 
      fun s => (congrArg (setParameter s .strategy) (if_neg (t := Value.int 0) hrank)).trans (hget s .strategy),
      fun s => hget s .contentSizeFlag, fun s => hget s .checksumFlag, fun s => hget s .dictIdFlag, fun s => hget s .jobSize,
      fun s => hget s .overlapLog, fun s => hget s .forceMaxWindow, fun s => hget s .longDistance, fun s => hget s .ldmHashLog,
      fun s => hget s .ldmMinMatch, fun s => hget s .ldmBucketLog, fun s => hget s .ldmHashRateLog, by simp⟩

theorem toSize_int {n : Nat} (h : n < 2 ^ 64) : (Value.int n).toSize = .ok n := by
  simp_all [Value.toSize, Value.whole?]

theorem levelTuning_int (hl : -2 ^ 31 ≤ level ∧ level < 2 ^ 31) {source dict : Nat} (hs : source < Value.unknownSize) (hd : dict < 2 ^ 64) :
    levelTuning (.int level) (.int source) (.int dict) = .ok (Tuning.ofLevel level source dict) := by
  have hunknown : Value.unknownSize = 2 ^ 64 - 1 := rfl
  rw [levelTuning, bind_of_ok (toWord_int hl), bind_of_ok (toSize_int (by omega)), bind_of_ok (toSize_int hd), if_neg (by omega)]
  rfl

theorem settingsOfLevel_eq (processors : Int) (level source : Value) (dict : Option Value) (options : Option (Bool × Bool × Bool)) :
    settingsOfLevel processors (("level", level) :: ("source_size", source) :: (dict.map ("dict_size", ·)).toList ++ headerArgs options) =
      (levelTuning level source (dict.getD (.int 0))).bind fun t =>
        settingsOf processors (headerArgs options ++ (tuningArgs t).map fun e => (e.1, .int e.2)) := by
  rcases dict with _ | dict <;> rcases options with _ | ⟨checksum, contentSize, dictId⟩ <;> rfl

theorem settingsOfLevel_ok (processors : Int) (ht : t.WithinBounds) {level source : Value} (dict : Option Value)
    (options : Option (Bool × Bool × Bool)) (h : levelTuning level source (dict.getD (.int 0)) = .ok t) :
    settingsOfLevel processors (("level", level) :: ("source_size", source) :: (dict.map ("dict_size", ·)).toList ++ headerArgs options) =
      .ok (tunedSettings t options) := by
  rw [settingsOfLevel_eq, h]
  exact settingsOf_tuningArgs ht options

/-- Every level gives settings for any sizes, and their tuning lies within its bounds. -/
theorem settingsOfLevel_within (processors : Int) {level : Int} (hl : -2 ^ 31 ≤ level ∧ level < 2 ^ 31) {source dict : Nat} (h : source + dict + 2 ^ 31 < 2 ^ 64) :
    ∃ s : Settings, settingsOfLevel processors [("level", .int level), ("source_size", .int source), ("dict_size", .int dict)] = .ok s ∧
      ∃ t : Tuning, t.WithinBounds ∧ s.windowLog = t.windowLog ∧ s.hashLog = t.hashLog ∧ s.chainLog = t.chainLog ∧
        s.searchLog = t.searchLog ∧ s.minMatch = t.minMatch ∧ s.targetLength = t.targetLength ∧ s.strategy = some t.strategy := by
  have hunknown : Value.unknownSize = 2 ^ 64 - 1 := rfl
  have ht : (Tuning.ofLevel level source dict).WithinBounds := Tuning.ofLevelFor_within _ _ (by omega) _
  have hs := settingsOfLevel_ok processors ht (some (.int dict)) none (levelTuning_int hl (by omega) (by omega))
  exact ⟨_, hs, _, ht, rfl, rfl, rfl, rfl, rfl, rfl, rfl⟩

/-- The lowest level, for one byte behind a dictionary of one byte. -/
theorem settingsOfLevel_within_lowest :
    ∃ s : Settings, settingsOfLevel 1 [("level", .int (-2147483648)), ("source_size", .int (1 : Nat)), ("dict_size", .int (1 : Nat))] = .ok s ∧
      ∃ t : Tuning, t.WithinBounds ∧ s.windowLog = t.windowLog ∧ s.targetLength = t.targetLength := by
  have hl : -2 ^ 31 ≤ (-2147483648 : Int) ∧ (-2147483648 : Int) < 2 ^ 31 := by decide
  have hsize : 1 + 1 + 2 ^ 31 < 2 ^ 64 := by decide
  obtain ⟨s, hs, t, ht, hw, -, -, -, -, hlength, -⟩ := settingsOfLevel_within 1 hl hsize
  exact ⟨s, hs, t, ht, hw, hlength⟩

/-! ### Compressing at a level -/

theorem greater_int (h : n ≤ m) : (Value.int n).greater m = .ok false := by
  have hc : compare n (m * 10 ^ 0) ≠ .gt := by
    rw [Int.pow_zero, Int.mul_one]
    exact fun h => absurd (compare_gt_iff_gt.1 h) (by omega)
  show Except.ok (compare n (m * 10 ^ 0) == .gt) = _
  rw [beq_false_of_ne hc]

def optionValue : Option Bool → Value
  | none => .none
  | some b => .bool b

def levelSettings (level : Int) (checksum contentSize dictId : Option Bool) : Settings :=
  { level := if max level Tuning.minLevel = 0 then Tuning.defaultLevel else max level Tuning.minLevel
    checksumFlag := checksum.getD false, contentSizeFlag := contentSize.getD true, dictIdFlag := dictId.getD true }

theorem plainSettings_level (hl : level ≤ Tuning.maxLevel) (checksum contentSize dictId : Option Bool) :
    plainSettings (.int level) (.int 0) (optionValue checksum) (optionValue contentSize) (optionValue dictId) =
      (Value.int level).toWord.bind fun _ => .ok (levelSettings level checksum contentSize dictId) := by
  have hmin : Tuning.minLevel = -131072 := rfl
  have hmax : Tuning.maxLevel = 22 := rfl
  have hclamp : Settings.clamp Tuning.minLevel Tuning.maxLevel level = max level Tuning.minLevel := by
    rw [Settings.clamp]
    omega
  by_cases h : -2 ^ 31 ≤ level ∧ level < 2 ^ 31
  · have hset : setParameter {} .level (.int level) = .ok (levelSettings level none none none) := by
      rw [setParameter, bind_of_ok (toWord_int h), Settings.set, hclamp]
      rfl
    unfold plainSettings
    rw [bind_of_ok hset, toWord_int h]
    rcases checksum with _ | _ | _ <;> rcases contentSize with _ | _ | _ <;> rcases dictId with _ | _ | _ <;> rfl
  · have herror : (Value.int level).toWord = .error .overflow := if_neg h
    unfold plainSettings setParameter
    rw [herror]
    rfl

/-- What a compressor that is given a level and options of headers makes of some data. -/
def compressAtLevel (processors level : Int) (checksum contentSize dictId : Option Bool) (data : ByteArray) : Except Failure ByteArray := do
  let x ← compressorOf processors [("level", .int level), ("write_checksum", optionValue checksum),
    ("write_content_size", optionValue contentSize), ("write_dict_id", optionValue dictId)] none none
  (compressAtOnce x (.ok data)).2

/-- What a compressor with the settings for a level and a size makes of data of that size. -/
def compressWithSettings (processors level : Int) (checksum contentSize dictId : Bool) (data : ByteArray) : Except Failure ByteArray := do
  let s ← settingsOfLevel processors ([("level", .int level), ("source_size", .int data.size)] ++ headerArgs (some (checksum, contentSize, dictId)))
  let x ← compressorOf processors [] none (some s)
  (compressAtOnce x (.ok data)).2

/-- Tuned twice or once, a frame starts in the same way. -/
theorem startPlain_tunedSettings (hl : level ≤ Tuning.maxLevel) (checksum contentSize dictId : Option Bool) (hn : n ≠ 0) :
    Compress.startPlain (tunedSettings (Tuning.ofLevel level n 0) (some (checksum.getD false, contentSize.getD true, dictId.getD true))) (some n) =
      Compress.startPlain (levelSettings level checksum contentSize dictId) (some n) := by
  have hd : 0 + 2 ^ 31 < 2 ^ 64 := by decide
  have hlevel : Tuning.ofLevel level n 0 = Tuning.ofLevelFor level (some n) 0 .plain := by rw [Tuning.ofLevel, if_neg hn]
  have hover := Settings.override_of_within (Tuning.ofLevelFor_within level (some n) hd .plain)
    (Tuning.targetLength_defaultLevel (some n) hd .plain)
  generalize hs : tunedSettings (Tuning.ofLevel level n 0) (some (checksum.getD false, contentSize.getD true, dictId.getD true)) = s
  generalize hs' : levelSettings level checksum contentSize dictId = s'
  have htuned : s.tuning s.level (some n) 0 .plain = (Tuning.ofLevelFor level (some n) 0 .plain).fit (some n) 0 .plain := by
    rw [← hs, hlevel]
    exact congrArg (fun t => Tuning.fit t (some n) 0 .plain) hover
  have hplain : s'.tuning s'.level (some n) 0 .plain = (Tuning.ofLevelFor level (some n) 0 .plain).fit (some n) 0 .plain := by
    rw [← hs']
    exact congrArg (fun t => Tuning.fit t (some n) 0 .plain) (Tuning.ofLevelFor_clamp hl (some n) 0 .plain)
  rw [Compress.startPlain, Compress.startPlain, htuned, hplain, ← hs, ← hs']
  rfl

theorem compressAtLevel_eq (processors : Int) (hl : level ≤ Tuning.maxLevel) (checksum contentSize dictId : Option Bool) (data : ByteArray) :
    compressAtLevel processors level checksum contentSize dictId data =
      (Value.int level).toWord.bind fun _ => (compressAtOnce { settings := levelSettings level checksum contentSize dictId } (.ok data)).2 := by
  have hsettings := plainSettings_level hl checksum contentSize dictId
  have hmade : compressorOf processors [("level", .int level), ("write_checksum", optionValue checksum),
      ("write_content_size", optionValue contentSize), ("write_dict_id", optionValue dictId)] none none =
      (plainSettings (.int level) (.int 0) (optionValue checksum) (optionValue contentSize) (optionValue dictId)).bind
        fun s => .ok { settings := s } := by
    rw [compressorOf, bind_of_ok (show Args.check _ _ _ = .ok () from rfl)]
    exact bind_of_ok (greater_int hl)
  rw [compressAtLevel, hmade, hsettings]
  cases (Value.int level).toWord <;> rfl

theorem compressorOf_settings (processors : Int) (h : u.Valid) : compressorOf processors [] none (some u) = .ok { settings := u } := by
  exact bind_of_ok (copySettings_eq h)

theorem compressWithSettings_eq (processors : Int) (checksum contentSize dictId : Bool)
    (hsize : data.size < Value.unknownSize) :
    compressWithSettings processors level checksum contentSize dictId data = (Value.int level).toWord.bind fun level =>
      (compressAtOnce { settings := tunedSettings (Tuning.ofLevel level data.size 0) (some (checksum, contentSize, dictId)) } (.ok data)).2 := by
  by_cases h : -2 ^ 31 ≤ level ∧ level < 2 ^ 31
  · have ht : (Tuning.ofLevel level data.size 0).WithinBounds := Tuning.ofLevelFor_within _ _ (by decide) _
    have hs := settingsOfLevel_ok processors ht none (some (checksum, contentSize, dictId)) (levelTuning_int h hsize (by decide))
    rw [toWord_int h]
    exact (bind_of_ok hs).trans (bind_of_ok (compressorOf_settings processors (tunedSettings_valid ht _)))
  · have herror : (Value.int level).toWord = .error .overflow := if_neg h
    have htuning (v : Value) : levelTuning (.int level) (.int data.size) v = .error .overflow := by
      rw [levelTuning, herror]
      rfl
    have hs : settingsOfLevel processors ([("level", .int level), ("source_size", .int data.size)] ++ headerArgs (some (checksum, contentSize, dictId))) =
        .error .overflow := by
      refine (settingsOfLevel_eq processors (.int level) (.int data.size) none (some (checksum, contentSize, dictId))).trans ?_
      rw [htuning]
      rfl
    rw [herror, compressWithSettings, hs]
    rfl

theorem compressAtOnce_of_start (hs : s.Valid)
    (h : Compress.startPlain s (some data.size) = Compress.startPlain s' (some data.size)) :
    ∃ frame, (compressAtOnce { settings := s } (.ok data)).2 = .ok frame ∧ (compressAtOnce { settings := s' } (.ok data)).2 = .ok frame := by
  have hintake : Context.firstIntake s .none (some data.size) = Context.firstIntake s' .none (some data.size) :=
    congrArg (fun w => (Compress.Running.start_ w).intake) h
  have hready : Compress.DictionaryChoice.none.Ready := trivial
  have hx (s : Settings) : Context.Has { settings := s } s .none := ⟨rfl, rfl⟩
  obtain ⟨frame, hframe, -⟩ := Context.direct_frames hs hready data
  obtain ⟨_, hrun, -⟩ := compressAtOnce_direct (hx s) hframe
  rw [hintake] at hframe
  obtain ⟨_, hrun', -⟩ := compressAtOnce_direct (hx s') hframe
  simp_all

/-- Settings for a level and the size of the data compress the data as the level does. -/
theorem compressAtOnce_settingsOfLevel (processors : Int) {level : Int} (hl : level ≤ Tuning.maxLevel)
    (checksum contentSize dictId : Option Bool) {data : ByteArray} (hne : data.size ≠ 0) (hsize : data.size < Value.unknownSize) :
    compressWithSettings processors level (checksum.getD false) (contentSize.getD true) (dictId.getD true) data =
        compressAtLevel processors level checksum contentSize dictId data ∧
      (-2 ^ 31 ≤ level → ∃ frame, compressAtLevel processors level checksum contentSize dictId data = .ok frame) := by
  have hmax : Tuning.maxLevel = 22 := rfl
  rw [compressAtLevel_eq processors hl, compressWithSettings_eq processors _ _ _ hsize]
  by_cases h : -2 ^ 31 ≤ level
  · have ht : (Tuning.ofLevel level data.size 0).WithinBounds := Tuning.ofLevelFor_within _ _ (by decide) _
    obtain ⟨frame, htuned, hplain⟩ := compressAtOnce_of_start (tunedSettings_valid ht _)
      (startPlain_tunedSettings hl checksum contentSize dictId hne)
    rw [toWord_int ⟨h, by omega⟩]
    dsimp only [Except.bind]
    simp_all
  · have herror : (Value.int level).toWord = .error .overflow := if_neg fun h' => h h'.1
    rw [herror]
    dsimp only [Except.bind]
    exact ⟨rfl, fun h' => absurd h' h⟩

/-- Level 0, three bytes, with a checksum. -/
theorem compressAtOnce_settingsOfLevel_three :
    compressWithSettings 1 0 true true true ⟨#[1, 2, 3]⟩ = compressAtLevel 1 0 (some true) none none ⟨#[1, 2, 3]⟩ ∧
      ∃ frame, compressAtLevel 1 0 (some true) none none ⟨#[1, 2, 3]⟩ = .ok frame := by
  have hl : (0 : Int) ≤ Tuning.maxLevel := by decide
  have hne : (⟨#[1, 2, 3]⟩ : ByteArray).size ≠ 0 := by decide
  have hsize : (⟨#[1, 2, 3]⟩ : ByteArray).size < Value.unknownSize := by decide
  obtain ⟨heq, hframe⟩ := compressAtOnce_settingsOfLevel 1 hl (some true) none none hne hsize
  exact ⟨heq, hframe (by decide)⟩

end ZstCodec.Session
