import ZstCodec.Proofs.Compress.Due
import ZstCodec.Session.Make

/-! # What the constructors make

Whatever arguments a constructor accepts, the settings it makes are valid, and the dictionary of a compressor, once it is prepared, is ready
for use. -/

namespace ZstCodec.Session

variable {s s' : Settings} {x : Compress.Context} {dict : Option HeldDictionary}

variable {a : Args} {D : Compress.DictionaryChoice} {processors : Int} {level : Value}

theorem setParameter_valid (hs : s.Valid) (h : setParameter s p v = .ok s') : s'.Valid := by
  obtain ⟨n, -, h⟩ := ok_of_bind h
  split at h
  · rename_i hset
    cases h
    exact hs.set hset
  · cases h

theorem foldlM_valid {α : Type} {f : Settings → α → Except Failure Settings} (hf : ∀ {s s' a}, s.Valid → f s a = .ok s' → s'.Valid)
    (xs : List α) (hs : s.Valid) (h : xs.foldlM f s = .ok s') : s'.Valid := by
  induction xs generalizing s with
  | nil =>
    cases h
    exact hs
  | cons a xs ih =>
    obtain ⟨s₁, h₁, h⟩ := ok_of_bind h
    exact ih (hf hs h₁) h

theorem settingsOf_valid (h : settingsOf processors a = .ok s) : s.Valid := by
  obtain ⟨-, -, h⟩ := ok_of_bind h
  obtain ⟨threads, -, h⟩ := ok_of_bind h
  grind [foldlM_valid, setParameter_valid, Settings.Valid.default]

theorem settingsOfLevel_valid (h : settingsOfLevel processors a = .ok s) : s.Valid := by
  unfold settingsOfLevel at h
  split at h
  · obtain ⟨t, -, h⟩ := ok_of_bind h
    exact settingsOf_valid h
  · cases h

/-- Settings as users come by them: from arguments, with or without a level. -/
def SettingsMade (s : Settings) : Prop := ∃ processors a, settingsOf processors a = .ok s ∨ settingsOfLevel processors a = .ok s

theorem SettingsMade.valid (h : SettingsMade s) : s.Valid := by
  obtain ⟨processors, a, h | h⟩ := h
  · exact settingsOf_valid h
  · exact settingsOfLevel_valid h

theorem plainSettings_valid
    (h : plainSettings level threads checksum contentSize dictId = .ok s) : s.Valid := by
  obtain ⟨s₁, h₁, h⟩ := ok_of_bind h
  obtain ⟨s₂, h₂, h⟩ := ok_of_bind h
  obtain ⟨s₃, h₃, h⟩ := ok_of_bind h
  obtain ⟨s₄, h₄, h⟩ := ok_of_bind h
  have hs₄ := setParameter_valid (setParameter_valid (setParameter_valid (setParameter_valid .default h₁) h₂) h₃) h₄
  split at h
  · exact setParameter_valid hs₄ h
  · cases h
    exact hs₄

/-- A dictionary as users come by it: bytes that fit into memory, perhaps precomputed at a level. -/
structure HeldDictionary.Made (d : HeldDictionary) : Prop where
  size : d.bytes.size < 2 ^ 63
  prepared : d.prepared = none ∨ ∃ d₀ level hasParams, precompute d₀ level hasParams = .ok d

/-- A dictionary is precomputed from its bytes, for the tuning of some level. -/
theorem precompute_spec (h : precompute d₀ level hasParams = .ok d)
    (hsize : d.bytes.size < 2 ^ 63) :
    ∃ t : Tuning, ∃ p, t.WithinBounds ∧ Compress.Dictionary.prepare (.ofTuning t) 0 d.bytes d.type = .ok p ∧ d.prepared = some p := by
  unfold precompute at h
  obtain ⟨-, h⟩ := ok_of_check h
  obtain ⟨-, h⟩ := ok_of_check h
  obtain ⟨-, h⟩ := ok_of_check h
  obtain ⟨t, ht, h⟩ := ok_of_bind h
  split at h
  · cases h
  · rename_i p hp
    cases h
    refine ⟨t, p, ?_, hp, rfl⟩
    obtain ⟨level, -, ht⟩ := ok_of_bind ht
    obtain ⟨source, -, ht⟩ := ok_of_bind ht
    obtain ⟨n, hn, ht⟩ := ok_of_bind ht
    cases ht
    have hn : n = d₀.bytes.size := by
      unfold Value.toSize Value.whole? at hn
      dsimp only at hn
      split at hn
      · cases hn
        rfl
      · cases hn
    exact Tuning.ofLevelFor_within _ _ (show n + 2 ^ 31 < 2 ^ 64 by dsimp only at hsize; omega) _

/-- The compressor was made with `dict` and with arguments that are accepted. -/
def CompressorMade (dict : Option HeldDictionary) (x : Compress.Context) : Prop :=
  (∀ d, dict = some d → d.Made) ∧
    ∃ processors a params, (∀ s, params = some s → SettingsMade s) ∧ compressorOf processors a dict params = .ok x

theorem CompressorMade.plain : CompressorMade none {} := ⟨fun _ h => (by cases h), 1, [], none, fun _ h => (by cases h), rfl⟩

theorem CompressorMade.spec (h : CompressorMade dict x) : x.settings.Valid ∧ x.dictionary = choiceOf dict := by
  obtain ⟨-, processors, a, params, hparams, h⟩ := h
  obtain ⟨-, -, h⟩ := ok_of_bind h
  obtain ⟨high, -, h⟩ := ok_of_bind h
  obtain ⟨-, h⟩ := ok_of_check h
  obtain ⟨threads, -, h⟩ := ok_of_bind h
  rcases params with _ | s
  · obtain ⟨s, hs, h⟩ := ok_of_bind h
    cases h
    exact ⟨plainSettings_valid hs, rfl⟩
  · obtain ⟨-, h⟩ := ok_of_check h
    obtain ⟨-, h⟩ := ok_of_check h
    obtain ⟨-, h⟩ := ok_of_check h
    obtain ⟨-, h⟩ := ok_of_check h
    obtain ⟨s', hs', h⟩ := ok_of_bind h
    cases h
    exact ⟨foldlM_valid (fun hs h => setParameter_valid hs h) copyOrder .default hs', rfl⟩

/-- What a compressor works with: nothing, or the bytes of its dictionary prepared for valid settings, which need not be
its own. -/
theorem CompressorMade.prepares (h : CompressorMade dict x)
    (hD : Compress.Context.prepare x.settings x.dictionary = .ok D) :
    (∀ d, dict = some d → d.bytes.size = 0) ∧ D = .none ∨
      ∃ d s level p, dict = some d ∧ d.bytes.size ≠ 0 ∧ d.bytes.size < 2 ^ 63 ∧ s.Valid ∧
        Compress.Dictionary.prepare s level d.bytes d.type = .ok p ∧ (D = .own p ∨ D = .prepared p) := by
  obtain ⟨hs, hdict⟩ := h.spec
  obtain ⟨hmade, -⟩ := h
  rw [hdict] at hD
  unfold choiceOf at hD
  rcases dict with _ | d
  · cases hD
    simp
  dsimp only at hD
  have hd := hmade d rfl
  split at hD
  · cases hD
    simp_all
  rename_i hne
  rcases hd.prepared with hnone | ⟨d₀, level, hasParams, hpre⟩
  · rw [hnone] at hD
    unfold Compress.Context.prepare at hD
    dsimp only at hD
    split at hD
    · cases hD
    · rename_i p hp
      cases hD
      exact .inr ⟨d, x.settings, x.settings.level, p, rfl, hne, hd.size, hs, hp, .inl rfl⟩
  · obtain ⟨t, p, ht, hp, hsome⟩ := precompute_spec hpre hd.size
    rw [hsome] at hD
    cases hD
    exact .inr ⟨d, .ofTuning t, 0, p, rfl, hne, hd.size, .ofTuning ht, hp, .inr rfl⟩

/-- The dictionary of a compressor, once it is prepared, is ready for use. -/
theorem CompressorMade.ready (h : CompressorMade dict x)
    (hD : Compress.Context.prepare x.settings x.dictionary = .ok D) : D.Ready := by
  rcases h.prepares hD with ⟨-, rfl⟩ | ⟨d, s, level, p, -, -, hsize, hs, hp, rfl | rfl⟩
  · trivial
  all_goals
    obtain ⟨h1, h2⟩ := Compress.Dictionary.prepare_prepared hs hsize hp
    exact ⟨h1, h2 ▸ hsize⟩

end ZstCodec.Session
