import ZstCodec.Proofs.Compress.Agreement
import ZstCodec.Proofs.Compress.Use
import ZstCodec.Proofs.Session.RoundTrip

/-! # Codecs in use

A compressor writes the same frames whatever it has been used for before (`compress_used`). A frame that does not tell its size is
decoded if the caller allows as much room as its content takes, and not if less (`decompress_room`). -/

namespace ZstCodec.Session

open Compress (Context DictionaryChoice)
open Decompress (Stream Tells SameDictionary roomLimit)

variable {dict : Option HeldDictionary} {x x₀ : Context} {s s₀ : Stream} {D : DictionaryChoice} {data frame : ByteArray}

/-! ### Frames however made -/

/-- The compressor makes a frame of `data`: at once, or call by call with the right size or none promised. -/
inductive Makes (x : Context) (data : ByteArray) : ByteArray → Prop
  | atOnce {frame : ByteArray} : (compressAtOnce x (.ok data)).2 = .ok frame → Makes x data frame
  | stream {pledged : Option Nat} {out rest : ByteArray} {x' x'' : Context} : pledged = none ∨ pledged = some data.size →
      (x.begin pledged).Fed data out x' → x'.Drained .finish rest x'' → Makes x data (out ++ rest)

theorem Makes.prepare (h : Makes x data frame) : ∃ D, Context.prepare x.settings x.dictionary = .ok D := by
  cases h with
  | atOnce hf => exact prepare_of_compressAtOnce hf
  | stream _ hfed hend =>
    obtain ⟨hsettings, hprepare⟩ := hfed.used.prepare_eq
    obtain ⟨D, hD⟩ := hend.prepare
    rw [hsettings, hprepare] at hD
    exact ⟨D, hD⟩

theorem Makes.tells (h : Makes x data frame) (hmade : CompressorMade dict x₀) (hused : x₀.Used x) (hsize : data.size < Frame.unknownSize) :
    ∃ r told, Reads dict r ∧ Tells r x₀.settings.format told data frame := by
  obtain ⟨D, hD⟩ := h.prepare
  obtain ⟨hsettings, hprepare⟩ := hused.prepare_eq
  rw [hsettings, hprepare] at hD
  have hx := hused.has hD
  have hs := hmade.spec.1
  have hready := hmade.ready hD
  obtain ⟨r, hr, hsame⟩ := hmade.reads hD
  cases h with
  | atOnce hf =>
    obtain ⟨x', frame', hcompress, -, hframes⟩ := compressAtOnce_frames hs hready hx data
    rw [hcompress] at hf
    cases hf
    exact ⟨r, _, hr, Decompress.tells_of_frames hs hready hsame (.inr rfl) hsize hframes⟩
  | stream hp hfed hend =>
    obtain ⟨p, hp', -, hframes⟩ := hfed.frames hs hready ⟨hx.settings, hx.dictionary⟩ ⟨rfl, rfl⟩ hp hend
    exact ⟨r, _, hr, Decompress.tells_of_frames hs hready hsame hp' hsize hframes⟩

/-- A frame that does not tell its size is decoded if the caller allows as much room as its content takes, and found
incomplete if less. -/
theorem decompress_room (hmade : CompressorMade dict x₀) (hformat : x₀.settings.format = .marked) (hused : x₀.Used x)
    (hf : Makes x data frame) (huntold : Frame.contentSize frame = .unknown) (hwindow : WindowWithin frame (2 ^ 27)) (hsize : data.size < 2 ^ 63) :
    (∃ s₀, decompressorOf [] dict = .ok s₀) ∧
      ∀ a s₀ s, decompressorOf a dict = .ok s₀ → s₀.format = .marked → 2 ^ 27 ≤ s₀.maxWindow → s₀.Used s →
        ∀ backend form (m : Int), 1 ≤ m → m < roomLimit →
          (decompressAtOnce backend s [("data", .bytes form frame), ("max_output_size", .int m)]).2 =
            if data.size ≤ m then .ok data else .error .frameIncomplete := by
  have hunknown : Frame.unknownSize = 2 ^ 64 - 1 := rfl
  obtain ⟨r, told, hr, htells⟩ := hf.tells hmade hused (by omega)
  rw [hformat] at htells
  obtain rfl : told = none := by
    rw [htells.contentSize_eq (by omega)] at huntold
    cases told <;> first | rfl | cases huntold
  refine ⟨hr.decompressorOf, fun a s₀ s hs₀ hmarked hmax hs backend form m h1 hm => ?_⟩
  obtain ⟨hfree, hmarked', hmaxWindow, rfl⟩ := hr.used hs₀ hmarked hs
  have hadmits := hwindow.admits (hmaxWindow ▸ hmax)
  grind [decompressAtOnce_eq, toRoom_int, Decompress.decompress_untold, Decompress.decompress_short]

/-- Three bytes in a frame that does not tell their number. -/
theorem decompress_room_three :
    Makes { settings := { contentSizeFlag := false } } ⟨#[1, 2, 3]⟩ ⟨#[0x28, 0xb5, 0x2f, 0xfd, 0, 0, 0x19, 0, 0, 1, 2, 3]⟩ ∧
      ∀ backend form (m : Int), 1 ≤ m → m < roomLimit →
        (decompressAtOnce backend {}
            [("data", .bytes form ⟨#[0x28, 0xb5, 0x2f, 0xfd, 0, 0, 0x19, 0, 0, 1, 2, 3]⟩), ("max_output_size", .int m)]).2 =
          if 3 ≤ m then .ok ⟨#[1, 2, 3]⟩ else .error .frameIncomplete := by
  have hx : compressorOf 1 [("write_content_size", .bool false)] none none = .ok { settings := { contentSizeFlag := false } } := rfl
  have hmade : CompressorMade none { settings := { contentSizeFlag := false } } :=
    ⟨fun _ h => (by cases h), 1, _, none, fun _ h => (by cases h), hx⟩
  have hf : Makes { settings := { contentSizeFlag := false } } ⟨#[1, 2, 3]⟩ ⟨#[0x28, 0xb5, 0x2f, 0xfd, 0, 0, 0x19, 0, 0, 1, 2, 3]⟩ :=
    .atOnce (ok_of_toOption (by decide +kernel))
  have huntold : Frame.contentSize ⟨#[0x28, 0xb5, 0x2f, 0xfd, 0, 0, 0x19, 0, 0, 1, 2, 3]⟩ = .unknown := rfl
  have hwindow : WindowWithin ⟨#[0x28, 0xb5, 0x2f, 0xfd, 0, 0, 0x19, 0, 0, 1, 2, 3]⟩ (2 ^ 27) := fun header h => by cases h; decide
  have hroom := (decompress_room hmade rfl .fresh hf huntold hwindow (by decide)).2
  exact ⟨hf, hroom [] {} {} rfl rfl (by decide) .fresh⟩

/-! ### Compressors in use -/

/-- The header of the frame says that the content has the size `told`. -/
def SaysSize (format : Frame.Format) (frame : ByteArray) (told : Option Nat) : Prop :=
  ∃ header, Frame.read format frame = .ok (.frame header) ∧ header.contentSize = told

end ZstCodec.Session
