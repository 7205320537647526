import ZstCodec.Proofs.Session.RoundTrip
import ZstCodec.Proofs.Compress.Use
import ZstCodec.Proofs.Frame.Query

/-! # Headers of frames

What a header is to say makes no difference to the blocks behind it (`compressAtOnce_options`). -/

namespace ZstCodec

/-- What the user wants of a frame beside its blocks. -/
structure HeaderOptions where
  format : Frame.Format
  contentSize : Bool
  checksum : Bool
  dictId : Bool

/-- The header of a frame with the given window and the size and identifier that are wanted. -/
def HeaderOptions.description (o : HeaderOptions) (windowLog size id : Nat) : Frame.Description :=
  { format := o.format
    windowLog
    contentSize := if o.contentSize then some size else none
    dictId := if o.dictId then id else 0
    checksum := o.checksum }

namespace Compress

/-- The identifier of the dictionary, where there is one. -/
def DictionaryChoice.id : DictionaryChoice → Nat
  | own d | prepared d => d.id
  | _ => 0

variable {s : Settings} {D : DictionaryChoice} {c : DictionaryChoice}

end Compress

namespace Session

open Compress (Context DictionaryChoice Writer)

variable {dict : Option HeldDictionary} {x x₀ : Context} {D : DictionaryChoice} {data b : ByteArray} {pledged : Option Nat}

/-- The compressor gives `b`, the front of a frame that was promised the size `pledged`, at once or having been fed
`data`. -/
inductive Gives (x : Context) (data : ByteArray) : Option Nat → ByteArray → Prop
  | atOnce {frame : ByteArray} : (compressAtOnce x (.ok data)).2 = .ok frame → Gives x data (some data.size) frame
  | fed {pledged : Option Nat} {out : ByteArray} {x' : Context} : (∀ n, pledged = some n → data.size ≤ n) → data.size ≠ 0 →
      (x.begin pledged).Fed data out x' → Gives x data pledged out
  | ended {pledged : Option Nat} {out rest : ByteArray} {x' x'' : Context} : pledged = none ∨ pledged = some data.size → data.size ≠ 0 →
      (x.begin pledged).Fed data out x' → x'.Drained .finish rest x'' → Gives x data pledged (out ++ rest)
  | front {pledged : Option Nat} {b rest : ByteArray} : Gives x data pledged (b ++ rest) → Gives x data pledged b

theorem Gives.blocks (h : Gives x data pledged b) (hs : settings.Valid) (hD : D.Ready) (hx : x.Has settings D) :
    ∃ content rest bytes more, b ++ rest = (Context.firstIntake settings D pledged).writer.plan.header ++ (bytes ++ more) ∧
      Compress.Blocks (Context.firstIntake settings D pledged).writer.layout content true content.size false
        (Context.firstIntake settings D pledged).writer.origin (Context.firstIntake settings D pledged).writer.coding D.reps bytes := by
  induction h with
  | atOnce hf =>
    obtain ⟨x', frame, hcompress, -, bytes, rfl, hblocks⟩ := compressAtOnce_frames hs hD hx data
    rw [hcompress] at hf
    cases hf
    exact ⟨_, .empty, bytes, _, append_empty, hblocks⟩
  | @fed pledged out x' hp hne hfed =>
    obtain ⟨-, ⟨-, h0, -⟩ | ⟨k, v, -, hfollows⟩⟩ :=
      hfed.inside hs hD ⟨hx.settings, hx.dictionary⟩ (show (x.begin pledged).Idle pledged from ⟨rfl, rfl⟩) hp
    · simp_all
    · obtain ⟨bytes, r', hout, hparts, -⟩ := hfollows.written
      refine ⟨_, v ++ (k.writer.opening ++ Writer.emptyBlock), bytes ++ Writer.emptyBlock, .empty, ?_,
        .of_parts hparts le_rfl (.inl rfl) (.emptyBlock ..)⟩
      rw [← append_assoc, hfollows.front hout hparts, append_empty]
  | @ended pledged out rest x' x'' hp hne hfed hend =>
    obtain ⟨p, -, hcase, bytes, hframe, hblocks⟩ :=
      hfed.frames hs hD ⟨hx.settings, hx.dictionary⟩ (show (x.begin pledged).Idle pledged from ⟨rfl, rfl⟩) hp hend
    obtain rfl := hcase.resolve_right hne
    exact ⟨_, .empty, bytes, _, append_empty.trans hframe, hblocks⟩
  | @front pledged b rest _ ih =>
    obtain ⟨content, rest', bytes, more, hjoin, hblocks⟩ := ih
    exact ⟨content, rest ++ rest', bytes, more, append_assoc.symm.trans hjoin, hblocks⟩

end Session

end ZstCodec
