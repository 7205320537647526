import ZstCodec.Proofs.Decompress.Call
import ZstCodec.Proofs.Decompress.Dictionary
import ZstCodec.Decompress.Decompressor

/-! # Decoding at once

`Tells` says what a reader learns from a frame: what the compressor was fed (`tells_of_frames`), to which a whole frame
is decoded by one call (`decompress_told`, `decompress_untold`). -/

namespace ZstCodec.Decompress

open Match Compress

variable {s : Stream} {dict : Option Dictionary} {format : Frame.Format} {told : Option Nat} {data frame : ByteArray}

/-- A frame of the given format that tells `data` to readers with the dictionary `dict`, and the size `told`. -/
def Tells (dict : Option Dictionary) (format : Frame.Format) (told : Option Nat) (data frame : ByteArray) : Prop :=
  ∃ msg : Message, msg.Framed frame ∧ msg.Understood (dict.getD .none) ∧ msg.ends = true ∧ msg.data = data ∧ msg.plan.format = format ∧
    msg.header.contentSize = told

theorem Tells.size_eq (h : Tells dict format (some n) data frame) : n = data.size := by
  obtain ⟨msg, hf, -, hends, rfl, -, htold⟩ := h
  exact (hf.contentSize n htold).2 hends

theorem Tells.read (h : Tells dict format told data frame) : ∃ header, Frame.read format frame = .ok (.frame header) ∧ header.contentSize = told := by
  obtain ⟨msg, hf, -, -, -, hformat, htold⟩ := h
  have hread := hf.read .empty
  simp_all

theorem Tells.contentSize_eq (h : Tells dict .marked told data frame) (hsize : data.size < Frame.unknownSize - 1) :
    Frame.contentSize frame = told.elim .unknown .known := by
  obtain ⟨header, hread, htold⟩ := h.read
  unfold Frame.contentSize
  rw [hread]
  dsimp only
  rw [htold]
  rcases told with _ | n
  · rfl
  · have := h.size_eq
    grind

theorem firstIntake_plan (settings : Settings) (D : DictionaryChoice) (pledged : Option Nat) :
    (Context.firstIntake settings D pledged).writer.plan.format = settings.format ∧
      (Context.firstIntake settings D pledged).writer.plan.contentSizeFlag = settings.contentSizeFlag := by
  cases D <;> exact ⟨rfl, rfl⟩

/-- What a compressor writes tells what it was fed. -/
theorem tells_of_frames (hs : settings.Valid) (hD : D.Ready)
    (hdict : SameDictionary D dict) (hp : pledged = none ∨ pledged = some data.size) (hsize : data.size < Frame.unknownSize)
    (h : (Context.firstIntake settings D pledged).writer.Frames D.reps data frame) :
    Tells dict settings.format (if settings.contentSizeFlag then pledged else none) data frame := by
  obtain ⟨hfollows, hpledged, -⟩ := Context.firstIntake_follows hs hD pledged
  have hfits := firstIntake_fits (s := settings) hD hdict pledged
  have horigin := hfollows.begins.origin
  have hplan := firstIntake_plan settings D pledged
  refine ⟨(Context.firstIntake settings D pledged).writer.message D.reps data true, ?_, understood_of_fits horigin hfits data true, rfl,
    Writer.data_message horigin, ?_, ?_⟩
  · refine Writer.framed_of_frames hfollows.begins h (fun n hn => ?_) (fun n hn => ?_) hfits.id_lt
    all_goals
      grind
  · exact hplan.1
  · show (if (Context.firstIntake settings D pledged).writer.plan.contentSizeFlag then
      (Context.firstIntake settings D pledged).writer.plan.pledged else none) = _
    rw [hplan.2, hpledged]

/-- A decoder between two frames. -/
structure Stream.Free (s : Stream) : Prop where
  stage : s.stage = .start
  outSize : s.outSize < Frame.unknownSize
  idle : s.idle + 1 < maxIdle

theorem Tells.run (h : Tells s.dict s.format told data frame) (hs : s.Free) (hfree : data.size ≤ free)
    (hw : told = none → ∀ header, Frame.read s.format frame = .ok (.frame header) → max header.windowSize (2 ^ Frame.windowLogMin) ≤ s.maxWindow) :
    ∃ s', s.run (frame ++ z) 0 free = (s', { pos := frame.size, out := data, result := .ok 0 }) ∧ s'.fixed = s.fixed ∧ s'.Free := by
  obtain ⟨msg, hf, hu, hends, rfl, hformat, rfl⟩ := h
  obtain ⟨s', hrun, hfixed, hstage, hout, hidle⟩ := Stream.run_whole (z := z) hf ⟨hformat.symm, hu⟩ hends hs.stage hs.outSize (.inl hs.idle) hfree (by
    rcases htold : msg.header.contentSize with _ | n
    · have hread := hf.read .empty
      rw [append_empty, hformat] at hread
      exact .inl (hw htold _ hread)
    · exact .inr rfl)
  exact ⟨s', hrun, hfixed, hstage, hout, by have := hs.idle; omega⟩

/-- A call without room for all of the content leaves the frame unfinished. -/
theorem Tells.run_short (h : Tells s.dict s.format none data frame) (hs : s.Free) (hfree : free < data.size)
    (hw : ∀ header, Frame.read s.format frame = .ok (.frame header) → max header.windowSize (2 ^ Frame.windowLogMin) ≤ s.maxWindow) :
    ∃ s' o hint, s.run frame 0 free = (s', o) ∧ o.result = .ok hint ∧ hint ≠ 0 := by
  obtain ⟨msg, hf, hu, hends, rfl, hformat, -⟩ := h
  have hread := hf.read .empty
  rw [append_empty, hformat] at hread
  obtain ⟨s', o, hrun, hh⟩ := Stream.Owes.run hf ⟨hformat.symm, hu⟩ (.start hs.stage hs.outSize) (Nat.zero_le _)
    (.inl ⟨hends, .empty, by rw [slice_all, append_empty]⟩) (show _ ∨ 0 < frame.size ∧ 0 < free from .inl hs.idle) (.inl (hw _ hread)) (.inr (.inl hf.header_le))
  rcases hh.ends with ⟨-, -, hdata, -⟩ | ⟨hint, -, -, hres, hne, -⟩
  · have := hh.out_le
    rw [hdata] at hfree
    omega
  simp_all

theorem decompress_told (h : Tells s.dict .marked (some n) data frame) (hs : s.Free) (hformat : s.format = .marked)
    (hsize : data.size < roomLimit) (most : Option (Except Failure Nat)) (extra : Extra) :
    (decompress s frame most extra).2 = .ok data := by
  obtain rfl := h.size_eq
  have hlimit : roomLimit = 2 ^ 36 := rfl
  have hunknown : Frame.unknownSize = 2 ^ 64 - 1 := rfl
  unfold decompress
  rw [h.contentSize_eq (by omega)]
  rcases hd : data.size with _ | k
  · simp_all
  · rw [← hformat] at h
    obtain ⟨s', hrun, -, -⟩ := h.run (z := .empty) hs le_rfl (fun hnone => nomatch hnone)
    have hcheck : checkRoom (k + 1) = .ok (k + 1) := by
      unfold checkRoom
      rw [if_neg (by omega), if_neg (by omega)]
    simp_all

variable (h : Tells s.dict .marked none data frame) (hs : s.Free) (hformat : s.format = .marked) (hw : ∀ header, Frame.read .marked frame = .ok (.frame header) → max header.windowSize (2 ^ Frame.windowLogMin) ≤ s.maxWindow)

include h hs hformat hw

theorem decompress_untold
    (hroom : data.size ≤ room) (hsize : data.size < roomLimit) (extra : Extra) :
    (decompress s frame (some (.ok room)) extra).2 = .ok data := by
  have hlimit : roomLimit = 2 ^ 36 := rfl
  have hunknown : Frame.unknownSize = 2 ^ 64 - 1 := rfl
  unfold decompress
  rw [h.contentSize_eq (by omega)]
  rw [← hformat] at h hw
  obtain ⟨s', hrun, -, -⟩ := h.run (z := .empty) hs hroom (fun _ => hw)
  simp_all

theorem decompress_short
    (hroom : room < data.size) (hsize : data.size < Frame.unknownSize - 1) (extra : Extra) :
    (decompress s frame (some (.ok room)) extra).2 = .error .frameIncomplete := by
  unfold decompress
  rw [h.contentSize_eq hsize]
  rw [← hformat] at h hw
  obtain ⟨s', o, hint, hrun, hres, hne⟩ := h.run_short hs hroom hw
  simp_all

end ZstCodec.Decompress
