import ZstCodec.Proofs.Session.Use

/-! # Chains of frames

In a chain every frame but the first is compressed with the content of the frame before as its dictionary. A decoder
that does the same comes to the content of the last one (`decompressChain_chained`). -/

namespace ZstCodec.Decompress

variable {s : Stream} {dict : Option Dictionary} {data frame : ByteArray} {room : Nat}

/-- Taking the dictionary leaves a decoder as free as it was. -/
theorem Stream.Free.spend (hs : s.Free) (hformat : s.format = .marked) (frame : ByteArray) :
    (s.spend frame).Free ∧ (s.spend frame).format = .marked := by
  unfold Stream.spend
  split <;> exact ⟨⟨hs.stage, hs.outSize, hs.idle⟩, hformat⟩

end ZstCodec.Decompress

namespace ZstCodec.Session

open Compress (Context)
open Decompress (Stream Tells roomLimit)

variable {dict : Option HeldDictionary} {s s₀ : Stream} {links : List (ByteArray × ByteArray)} {data frame : ByteArray}

/-- What a compressor with the dictionary `dict` makes of `data`: a standard frame that tells its size. -/
def Compressed (dict : Option HeldDictionary) (data frame : ByteArray) : Prop :=
  ∃ x₀ x, CompressorMade dict x₀ ∧ x₀.settings.format = .marked ∧ x₀.Used x ∧ Makes x data frame ∧ SaysSize .marked frame (some data.size)

theorem Compressed.tells (h : Compressed dict data frame) (hsize : data.size < roomLimit) :
    ∃ r, Reads dict r ∧ Tells r .marked (some data.size) data frame := by
  obtain ⟨x₀, x, hmade, hformat, hused, hf, header, hread, hsays⟩ := h
  have hunknown : roomLimit < Frame.unknownSize := by decide
  obtain ⟨r, told, hr, htells⟩ := hf.tells hmade hused (by omega)
  grind [Tells.read]

end ZstCodec.Session
