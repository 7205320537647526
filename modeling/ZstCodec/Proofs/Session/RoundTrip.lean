import ZstCodec.Proofs.Compress.AtOnce
import ZstCodec.Proofs.Decompress.Use
import ZstCodec.Proofs.Session.Make
import ZstCodec.Session.Compression
import ZstCodec.Session.Decompression

/-! # What is compressed is decompressed again

A compressor and a decompressor prepare one dictionary in their own ways, but to the same effect
(`CompressorMade.reads`). So what the one compresses at once the other decompresses (`decompress_compress`). -/

namespace ZstCodec.Session

open Compress (Context DictionaryChoice)
open Decompress (Stream Tells SameDictionary roomLimit)

variable {dict : Option HeldDictionary} {x x₀ : Context} {s s₀ : Stream} {D : DictionaryChoice} {data frame : ByteArray}

/-! ### Decompressors -/

/-- What a decompressor makes of a dictionary; an empty one is none. -/
def Reads (dict : Option HeldDictionary) (r : Option Decompress.Dictionary) : Prop :=
  (∀ d, dict = some d → d.bytes.size = 0) ∧ r = none ∨
    ∃ d e, dict = some d ∧ d.bytes.size ≠ 0 ∧ Decompress.Dictionary.prepare d.bytes d.type = .ok e ∧ r = some e

theorem Reads.unique (h : Reads dict r) (h' : Reads dict r') : r = r' := by
  rcases h with ⟨hempty, rfl⟩ | ⟨d, e, rfl, hne, he, rfl⟩ <;> rcases h' with ⟨hempty', rfl⟩ | ⟨d', e', hd, hne', he', rfl⟩
  · rfl
  · exact absurd (hempty d' hd) hne'
  · exact absurd (hempty' d rfl) hne
  simp_all

theorem windowOf_le (h : windowOf v = .ok n) : n ≤ 2 ^ 31 := by
  unfold windowOf at h
  split at h
  · cases h
    decide
  · obtain ⟨m, -, h⟩ := ok_of_bind h
    obtain ⟨hm, h⟩ := ok_of_check h
    cases h
    omega

/-- A decompressor is new when it is made, and has read its dictionary. -/
theorem decompressorOf_spec (h : decompressorOf a dict = .ok s₀) : s₀.New ∧ Reads dict s₀.dict := by
  obtain ⟨-, -, h⟩ := ok_of_bind h
  obtain ⟨w, hw, h⟩ := ok_of_bind h
  obtain ⟨format, -, h⟩ := ok_of_bind h
  rcases dict with _ | d
  · cases h
    exact ⟨⟨rfl, rfl, windowOf_le hw⟩, .inl ⟨fun _ h => (by cases h), rfl⟩⟩
  dsimp only at h
  split at h
  · rename_i hempty
    cases h
    exact ⟨⟨rfl, rfl, windowOf_le hw⟩, .inl ⟨fun _ h => Option.some.inj h ▸ hempty, rfl⟩⟩
  · rename_i hne
    split at h
    · cases h
    · rename_i e he
      cases h
      exact ⟨⟨rfl, rfl, windowOf_le hw⟩, .inr ⟨d, e, rfl, hne, he, rfl⟩⟩

theorem Reads.used (hr : Reads dict r) (h : decompressorOf a dict = .ok s₀)
    (hformat : s₀.format = .marked) (hused : s₀.Used s) :
    s.reset.Free ∧ s.reset.format = .marked ∧ s.reset.maxWindow = s₀.maxWindow ∧ s.reset.dict = r := by
  obtain ⟨hnew, hreads⟩ := decompressorOf_spec h
  obtain ⟨hfree, hfixed⟩ := hused.free hnew hformat
  exact ⟨hfree, (congrArg (·.1) hfixed).trans hformat, congrArg (·.2.1) hfixed, (congrArg (·.2.2) hfixed).trans (hreads.unique hr)⟩

/-- Any dictionary that can be read makes a decompressor. -/
theorem Reads.decompressorOf (h : Reads dict r) : ∃ s₀, decompressorOf [] dict = .ok s₀ := by
  rcases h with ⟨hempty, rfl⟩ | ⟨d, e, rfl, hne, he, rfl⟩
  · rcases dict with _ | d
    · exact ⟨_, rfl⟩
    · refine ⟨{}, ?_⟩
      unfold Session.decompressorOf
      simp only [if_pos (hempty d rfl)]
      rfl
  · refine ⟨{ own := some e, dict := some e }, ?_⟩
    unfold Session.decompressorOf
    simp only [if_neg hne, he]
    rfl

/-- What a compressor has prepared a decompressor can read, and the two are the same. -/
theorem CompressorMade.reads (h : CompressorMade dict x) (hD : Context.prepare x.settings x.dictionary = .ok D) :
    ∃ r, Reads dict r ∧ SameDictionary D r := by
  rcases h.prepares hD with ⟨hempty, rfl⟩ | ⟨d, s, level, p, hdict, hne, hsize, hs, hp, hD⟩
  · exact ⟨none, .inl ⟨hempty, rfl⟩, trivial⟩
  · obtain ⟨e, he, hfits⟩ := Decompress.prepare_fits hs hsize hp
    refine ⟨some e, .inr ⟨d, e, hdict, hne, he, rfl⟩, ?_⟩
    rcases hD with rfl | rfl <;> exact hfits

/-! ### Compressing at once -/

theorem compressAtOnce_direct (hx : x.Has settings D)
    (h : ((Context.firstIntake settings D (some data.size)).writer.finishAtOnce data).2 = .ok frame) :
    ∃ x', compressAtOnce x (.ok data) = (x', .ok frame) ∧ x'.Has settings D := by
  obtain ⟨x', hrun, hx', -⟩ := Context.run_direct (x := x.reset.begin (some data.size)) ⟨hx.settings, hx.dictionary⟩ rfl
    le_rfl h
  simp_all [compressAtOnce]

/-- A compressor that can prepare its dictionary compresses everything. -/
theorem compressAtOnce_frames (hs : settings.Valid) (hD : D.Ready) (hx : x.Has settings D) (data : ByteArray) :
    ∃ x' frame, compressAtOnce x (.ok data) = (x', .ok frame) ∧ x'.Has settings D ∧
      (Context.firstIntake settings D (some data.size)).writer.Frames D.reps data frame := by
  obtain ⟨frame, hdirect, hframes⟩ := Context.direct_frames hs hD data
  grind [compressAtOnce_direct]

/-- Nothing is compressed with a dictionary that cannot be prepared. -/
theorem prepare_of_compressAtOnce (h : (compressAtOnce x (.ok data)).2 = .ok frame) :
    ∃ D, Context.prepare x.settings x.dictionary = .ok D := by
  obtain ⟨n, hn⟩ : ∃ n, ((x.reset.begin (some data.size)).run data 0 (Compress.bound data.size) .finish).2.result = .ok n := by
    grind [compressAtOnce]
  exact Context.prepare_of_run (x := x.reset.begin (some data.size)) hn

/-! ### There and back -/

theorem decompressAtOnce_eq (backend : Backend) (s : Stream) (form : BytesForm) (frame : ByteArray) (v : Value) :
    decompressAtOnce backend s [("data", .bytes form frame), ("max_output_size", v)] =
      Decompress.decompress s.reset frame (if v.truth then some v.toRoom else none) (extraOf backend true) := rfl

/-- A caller that allows some room, within what there is, allows just that. -/
theorem toRoom_int {m : Int} (h : 1 ≤ m) (hm : m < roomLimit) : (if (Value.int m).truth then some (Value.int m).toRoom else none) = some (.ok m.toNat) := by
  have hlimit : roomLimit = 2 ^ 36 := rfl
  have htruth : (Value.int m).truth = true := by
    simp [Value.truth]
    omega
  unfold Value.toRoom Value.whole? Value.roomLimit
  grind

/-- The window that a frame asks for is no larger than `n`. -/
def WindowWithin (frame : ByteArray) (n : Nat) : Prop := ∀ header, Frame.read .marked frame = .ok (.frame header) → header.windowSize ≤ n

theorem WindowWithin.admits (h : WindowWithin frame (2 ^ 27)) (hn : 2 ^ 27 ≤ n) (header : Frame.Header)
    (hread : Frame.read .marked frame = .ok (.frame header)) : max header.windowSize (2 ^ Frame.windowLogMin) ≤ n := by
  have := h header hread
  unfold Frame.windowLogMin
  omega

/-- What a compressor makes of `data` at once, a decompressor with the same dictionary decodes to `data`, whatever the two
were used for. If the frame does not tell its size, enough room and the window have to be allowed. -/
theorem decompress_compress (hmade : CompressorMade dict x₀) (hformat : x₀.settings.format = .marked) (hsettings : x.settings = x₀.settings)
    (hdict : Context.prepare x.settings x.dictionary = Context.prepare x₀.settings x₀.dictionary) (hsize : data.size < roomLimit)
    (hf : (compressAtOnce x (.ok data)).2 = .ok frame) :
    (∃ s₀, decompressorOf [] dict = .ok s₀) ∧
      ∀ a s₀ s, decompressorOf a dict = .ok s₀ → s₀.format = .marked → s₀.Used s → ∀ backend form (m : Int),
        x₀.settings.contentSizeFlag = true ∨
          max 1 data.size ≤ m ∧ m < roomLimit ∧ WindowWithin frame (2 ^ 27) ∧ 2 ^ 27 ≤ s₀.maxWindow →
        (decompressAtOnce backend s [("data", .bytes form frame), ("max_output_size", .int m)]).2 = .ok data := by
  obtain ⟨D, hD⟩ := prepare_of_compressAtOnce hf
  have hD₀ := hdict.symm.trans hD
  obtain ⟨r, hr, hsame⟩ := hmade.reads hD₀
  obtain ⟨x', frame', hcompress, -, hframes⟩ := compressAtOnce_frames hmade.spec.1 (hmade.ready hD₀) ⟨hsettings, hsettings ▸ hD⟩ data
  obtain rfl : frame' = frame := by
    simp_all
  have hlimit : roomLimit = 2 ^ 36 := rfl
  have hunknown : Frame.unknownSize = 2 ^ 64 - 1 := rfl
  have htells := Decompress.tells_of_frames hmade.spec.1 (hmade.ready hD₀) hsame (.inr rfl) (by omega) hframes
  refine ⟨hr.decompressorOf, fun a s₀ s hs₀ hmarked hused backend form m hm => ?_⟩
  obtain ⟨hfree, hmarked', hmaxWindow, hdict'⟩ := hr.used hs₀ hmarked hused
  rw [hformat, ← hdict'] at htells
  rw [decompressAtOnce_eq]
  rcases hflag : x₀.settings.contentSizeFlag with _ | _ <;> rw [hflag] at htells hm
  · obtain ⟨hm1, hm2, hwithin, hmax⟩ := hm.resolve_left Bool.false_ne_true
    rw [toRoom_int (by omega) hm2]
    refine Decompress.decompress_untold htells hfree hmarked' (hwithin.admits ?_) (by omega) hsize _
    rw [hmaxWindow]
    exact hmax
  grind [Decompress.decompress_told]

/-- Three bytes, compressed and decompressed by codecs that are made without arguments. -/
theorem decompress_compress_three : ∃ frame, (compressAtOnce {} (.ok ⟨#[1, 2, 3]⟩)).2 = .ok frame ∧
    ∀ backend form m,
      (decompressAtOnce backend {} [("data", .bytes form frame), ("max_output_size", .int m)]).2 = .ok ⟨#[1, 2, 3]⟩ := by
  obtain ⟨x', frame, hcompress, -⟩ := compressAtOnce_frames (x := {}) (D := .none) CompressorMade.plain.spec.1 trivial ⟨rfl, rfl⟩ ⟨#[1, 2, 3]⟩
  have hframe : (compressAtOnce {} (.ok ⟨#[1, 2, 3]⟩)).2 = .ok frame := congrArg Prod.snd hcompress
  have hsize : (⟨#[1, 2, 3]⟩ : ByteArray).size < roomLimit := by decide
  have hthere := decompress_compress .plain rfl rfl rfl hsize hframe
  exact ⟨frame, hframe, fun backend form m => hthere.2 [] {} {} rfl rfl .fresh backend form m (.inl rfl)⟩

end ZstCodec.Session
