import ZstCodec.Proofs.Compress.Due
import ZstCodec.Proofs.Decompress.Message

/-! # One dictionary on both sides

A compressor and a decompressor prepare the same bytes in their own ways. The writer's content is the end of the
reader's, and what the writer believes of the reader's tables is true (`Context.serves`). -/

namespace ZstCodec.Compress.Dictionary

open Sequence (Table padded)

variable {b : ByteArray} {d : Fse.Distribution}

/-! ### Tables of a full dictionary -/

theorem share_pos_of_covers {max : Nat} (h : covers d max = true) (hs : s ≤ max) : 0 < d.share s := by
  rw [covers, Bool.and_eq_true, List.all_eq_true] at h
  have := of_decide_eq_true (h.2 s (List.mem_range.2 (by omega)))
  exact Int.natAbs_pos.2 this

theorem tableOf_shared (hd : d.Valid) (max : Nat) : (tableOf d max).Shared max (some d.decoder) := fun _ =>
  ⟨d, d.decoder, rfl, hd, rfl, fun _ hs => hd.matches_encoder hs, fun hc s hs => by
    grind [share_pos_of_covers, tableOf]⟩

/-- The table for offsets is written for more codes than were read. -/
theorem offset_shared (hd : d.Valid) (reach n : Nat) :
    Table.Shared { encoder := (padded d n).encoder, known := if covers d reach then .complete else .unchecked } reach (some d.decoder) := fun _ =>
  ⟨padded d n, d.decoder, rfl, Sequence.valid_padded n hd, rfl,
    fun s hs => Sequence.matches_padded n hd (by rwa [Sequence.share_padded] at hs), fun hc s hs => by
      rw [Sequence.share_padded]
      refine share_pos_of_covers ?_ hs
      simp_all⟩

theorem readDistribution_valid (hk : k.Regular)
    (h : ZstCodec.Dictionary.readDistribution k b i = .ok (d, j)) : d.Valid := by
  unfold ZstCodec.Dictionary.readDistribution at h
  split at h
  · cases h
  · rename_i d' used hread
    split at h
    · cases h
    · rename_i hlog
      cases h
      exact (Fse.Distribution.read_valid hread (le_trans (Nat.le_of_not_lt hlog) hk.maxLog_le)).1

theorem literals_shared {t : Huffman.WeightTable} (ht : t.Full) (reading : Huffman.Reading) :
    Literals.Code.Shared
      { code := t.code, known := if (decide (t.weights.size = 256) && t.weights.all (· ≠ 0)) = true then .complete else .unchecked }
      (some (t.decoder reading)) := fun _ =>
  ⟨t, reading, ht, rfl, rfl, fun hc s hs => by
    have hall : (decide (t.weights.size = 256) && t.weights.all (· ≠ 0)) = true := by
      by_contra hnot
      rw [if_neg hnot] at hc
      cases hc
    rw [Bool.and_eq_true, decide_eq_true_eq, Array.all_eq_true] at hall
    have := hall.2 s (by omega)
    rw [Huffman.WeightTable.weight, Array.getD_eq_getD_getElem?, Array.getElem?_eq_getElem (by omega)]
    exact of_decide_eq_true this⟩

theorem codingOf_shared (h : ZstCodec.Dictionary.Entropy.read b = .ok e) (content : Nat) :
    SharedUpTo (codingOf e content)
      { literals := some (e.literals.decoder .inPairs)
        sequences := some { litLength := e.litLength.decoder, offset := e.offset.decoder, matchLength := e.matchLength.decoder }
        reps := e.reps } (content + Block.maxSize) := by
  obtain ⟨used, i₁, i₂, i₃, hlit, hoff, hml, hll, -, -⟩ := ZstCodec.Dictionary.Entropy.read_spec h
  have hoff := readDistribution_valid Sequence.offsetKind_regular hoff
  have hml := readDistribution_valid Sequence.matchLengthKind_regular hml
  have hll := readDistribution_valid Sequence.litLengthKind_regular hll
  refine ⟨min (highBit (content + Block.maxSize)) Sequence.offsetKind.maxCode, ⟨literals_shared (Huffman.WeightTable.read_full hlit) _,
    tableOf_shared hll _, offset_shared hoff _ _, tableOf_shared hml _⟩, fun v hv hlt => ?_⟩
  have hcode := offsetCode_le_of_lt hlt
  refine Nat.le_min.2 ⟨?_, hcode⟩
  rcases Nat.eq_zero_or_pos v with rfl | hpos
  · exact Nat.zero_le _
  · exact le_highBit (le_trans (highBit_spec hpos).1 hv)

end ZstCodec.Compress.Dictionary

namespace ZstCodec.Decompress

open Match Compress
open Sequence (EndsWith)

variable {b : ByteArray} {d : Compress.Dictionary} {dict : Dictionary} {s : Settings}
variable {type : ZstCodec.Dictionary.ContentType}

/-! ### Prepared on both sides -/

/-- The reader's dictionary is what a writer behind `content` takes it for, with the codes `c` and the offsets `r`. -/
structure Dictionary.Fits (dict : Dictionary) (content : ByteArray) (c : Block.Coding) (r : Reps) (id : Nat) : Prop where
  tail : EndsWith dict.content content firstPosition content.size
  shared : SharedUpTo c dict.memory (content.size + Block.maxSize - firstPosition)
  reps : dict.memory.reps = r
  named : id = 0 ∨ id = dict.id
  id_lt : id < 2 ^ 32

theorem endsWith_load (before content : ByteArray) :
    EndsWith (before ++ content) (Finder.emptyContent ++ content) firstPosition (Finder.emptyContent ++ content).size := by
  have hsize := Finder.size_emptyContent
  refine ⟨by grind, fun k hlow hk => ?_⟩
  have h₁ := byteAt_append_right (a := before) (b := content) (k - firstPosition)
  have h₂ := byteAt_append_right (a := Finder.emptyContent) (b := content) (k - firstPosition)
  grind

theorem fits_nothing (hsize : content.size = firstPosition) (hreps : dict.memory.reps = .start) :
    dict.Fits content {} .start 0 where
  tail := by
    rw [hsize]
    exact .start _ _ _
  shared := .nothing _ _
  reps := hreps
  named := .inl rfl
  id_lt := by decide

theorem prepare_plain
    (h : type = .raw ∨ type ≠ .full ∧ ZstCodec.Dictionary.isMarked b = false) : Dictionary.prepare b type = .ok { content := b } := by
  unfold Dictionary.prepare
  by_cases hraw : type = .raw
  · rw [if_pos hraw]
    rfl
  · obtain ⟨hfull, hmark⟩ := h.resolve_left hraw
    simp only [hmark, bind, Except.bind, Bool.not_false, if_true]
    rw [if_neg hraw, if_neg hfull]
    rfl

/-- A full dictionary, once its tables have been read. -/
def Dictionary.ofEntropy (b : ByteArray) (e : ZstCodec.Dictionary.Entropy) : Dictionary :=
  { content := b
    id := ZstCodec.Dictionary.identifier b
    memory := {
      literals := some (e.literals.decoder .inPairs)
      sequences := some { litLength := e.litLength.decoder, offset := e.offset.decoder, matchLength := e.matchLength.decoder }
      reps := e.reps } }

theorem prepare_full (hraw : type ≠ .raw)
    (hmark : ZstCodec.Dictionary.isMarked b = true) (he : ZstCodec.Dictionary.Entropy.read b = .ok e) :
    Dictionary.prepare b type = .ok (.ofEntropy b e) := by
  unfold Dictionary.prepare
  simp only [hmark, bind, Except.bind, Bool.not_true, Bool.false_eq_true, if_false]
  rw [if_neg hraw, he]
  rfl

theorem prepare_fits
    (hs : s.Valid) (hb : b.size < 2 ^ 63) (h : Compress.Dictionary.prepare s level b type = .ok d) :
    ∃ dict, Dictionary.prepare b type = .ok dict ∧ dict.Fits d.finder.content d.coding d.reps d.id := by
  have hu := hs.tuning level none hb .preparing
  have hload (content : ByteArray) : (({ Finder.fresh (s.tuning level none b.size .preparing) (s.tuning level none b.size .preparing).usesRows
      with salt := 0, hash3Log := 0 } : Finder).load content s.forceMaxWindow Finder.fillDictionary).content =
      Finder.emptyContent ++ content := by
    obtain ⟨next, dictEnd, tables, heq, -⟩ := Finder.load_filled 0 0 content s.forceMaxWindow (Finder.rowless_usesRows _) hu.two_le_chain
    rw [heq]
  unfold Compress.Dictionary.prepare at h
  dsimp only at h
  split at h
  · -- too short to be looked at
    split at h
    · cases h
    rename_i hfull
    cases h
    have hmark : ZstCodec.Dictionary.isMarked b = false := by
      have hleast : Compress.Dictionary.leastSize = 8 := rfl
      rw [ZstCodec.Dictionary.isMarked, decide_eq_false (by omega), Bool.false_and]
    exact ⟨_, prepare_plain (.inr ⟨hfull, hmark⟩), fits_nothing Finder.size_emptyContent rfl⟩
  split at h
  · cases h
  split at h
  · -- content alone
    cases h
    have hplain : type = .raw ∨ type ≠ .full ∧ ZstCodec.Dictionary.isMarked b = false := by
      by_cases hr : type = .raw
      · exact .inl hr
      · simp_all
    refine ⟨_, prepare_plain hplain, ?_, .nothing _ _, rfl, .inl rfl, Nat.two_pow_pos 32⟩
    rw [hload]
    have := endsWith_load .empty b
    rwa [empty_append] at this
  · -- tables and content
    rename_i hmarked
    obtain ⟨e, he, h⟩ := ok_of_bind h
    cases h
    have hsize : e.size ≤ b.size := by
      obtain ⟨_, _, _, _, -, -, -, -, -, hreps⟩ := ZstCodec.Dictionary.Entropy.read_spec he
      have := hreps.1
      omega
    have hempty := Finder.size_emptyContent
    simp only [Bool.or_eq_true, decide_eq_true_eq, Bool.not_eq_true', not_or, Bool.not_eq_false] at hmarked
    refine ⟨_, prepare_full hmarked.1 hmarked.2 he, ?_, ?_, rfl, ?_, ?_⟩
    · rw [hload]
      have := endsWith_load (slice b 0 e.size) (slice b e.size b.size)
      rwa [slice_append_slice (Nat.zero_le _) hsize, slice_all] at this
    · rw [hload, size_append, hempty, show firstPosition + (slice b e.size b.size).size + Block.maxSize - firstPosition =
        (slice b e.size b.size).size + Block.maxSize by omega]
      exact Dictionary.codingOf_shared he _
    · by_cases hflag : s.dictIdFlag = true
      · exact .inr (if_pos hflag)
      · exact .inl (if_neg hflag)
    grind [ZstCodec.Dictionary.identifier, le32_lt]

/-! ### The start of a frame -/

/-- The dictionary of a compressor, once it is prepared, and that of a decompressor are the same. -/
def SameDictionary : DictionaryChoice → Option Dictionary → Prop
  | .none, none => True
  | .own d, some dict | .prepared d, some dict => dict.Fits d.finder.content d.coding d.reps d.id
  | _, _ => False

/-- A writer takes over the content of its dictionary, if there is any. -/
theorem content_startWith (s : Settings) (level : Int) (hd : d.Prepared) (pledged : Option Nat) :
    (startWith s level d pledged).finder.content = d.finder.content ∨
      (startWith s level d pledged).finder.content.size = firstPosition ∧ d.finder.content.size = firstPosition := by
  unfold startWith startBeside
  dsimp only
  split
  · unfold Compress.Dictionary.attach
    dsimp only
    split
    · rename_i hstart
      exact .inr ⟨Finder.size_emptyContent, hstart.trans hd.start⟩
    · exact .inl rfl
  · exact .inl rfl

theorem startWith_fits (hd : d.Prepared)
    (h : dict.Fits d.finder.content d.coding d.reps d.id) (level : Int) (pledged : Option Nat) :
    dict.Fits (startWith s level d pledged).finder.content (startWith s level d pledged).coding d.reps
      (startWith s level d pledged).plan.dictId := by
  have hcoding : (startWith s level d pledged).coding = d.coding := rfl
  have hid : (startWith s level d pledged).plan.dictId = if s.dictIdFlag then d.id else 0 := rfl
  have hsize : (startWith s level d pledged).finder.content.size = d.finder.content.size := by
    rcases content_startWith s level hd pledged with heq | ⟨h₁, h₂⟩
    · rw [heq]
    · rw [h₁, h₂]
  refine ⟨?_, by rw [hcoding, hsize]; exact h.shared, h.reps, ?_, ?_⟩
  · grind [content_startWith, Dictionary.Fits.tail, EndsWith.start]
  · rw [hid]
    split
    · exact h.named
    · exact .inl rfl
  · rw [hid]
    split
    · exact h.id_lt
    · decide

/-- A frame starts from what its reader has. -/
theorem firstIntake_fits {dict : Option Dictionary} (hD : D.Ready) (h : SameDictionary D dict)
    (pledged : Option Nat) :
    (dict.getD .none).Fits (Context.firstIntake s D pledged).writer.finder.content (Context.firstIntake s D pledged).writer.coding D.reps
      (Context.firstIntake s D pledged).writer.plan.dictId := by
  cases D with
  | none =>
    cases dict with
    | some _ => exact h.elim
    | none =>
      have hid : (startPlain s pledged).plan.dictId = 0 := ite_self 0
      have : Dictionary.none.Fits (startPlain s pledged).finder.content {} .start 0 := fits_nothing Finder.size_emptyContent rfl
      rw [← hid] at this
      exact this
  | loaded b type => exact hD.elim
  | own d =>
    cases dict with
    | none => exact h.elim
    | some dict => exact startWith_fits hD.1 h s.level pledged
  | prepared d =>
    cases dict with
    | none => exact h.elim
    | some dict => exact startWith_fits hD.1 h 0 pledged

/-- A reader with the writer's dictionary understands what the writer makes. -/
theorem understood_of_fits {w : Writer} (horigin : w.origin = w.finder.content.size)
    (h : dict.Fits w.finder.content w.coding r w.plan.dictId) (data : ByteArray) (ends : Bool) : (w.message r data ends).Understood dict where
  ready := by
    rw [show (w.message r data ends).layout.origin = w.finder.content.size from horigin]
    exact ⟨⟨h.tail.size, fun k hlow hk => by
      rw [show (w.message r data ends).content = w.finder.content ++ data from rfl, byteAt_append_left hk]
      exact h.tail.byte k hlow hk⟩, h.shared, h.reps⟩
  named := h.named

end ZstCodec.Decompress
