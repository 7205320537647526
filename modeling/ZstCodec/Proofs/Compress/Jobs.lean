import ZstCodec.Proofs.Decompress.Message

/-! # Frames written in jobs

A job has a content of its own, which starts with the end of the job before it. All the same the blocks of all jobs are
the blocks of one frame (`finishInJobs_spec`): what a job refers to stands at the same distance in the content of the
frame. -/

namespace ZstCodec.Match.Finder

variable {t : Tuning} {rows : Bool}

/-! ### Earlier input -/

theorem fillInput_kept {content : ByteArray} {next : Nat} (hr : Rowless t rows) (hlog : 2 ≤ t.chainLog) (hnext : 0 < next)
    (hle : next ≤ content.size) :
    ∃ tables, ({ fresh t rows with content, next } : Finder).fillInput = { fresh t rows with content, next := content.size, tables } ∧
      ({ fresh t rows with content, next := content.size, tables } : Finder).Kept content.size := by
  have hsize : 0 < content.size := lt_of_lt_of_le hnext hle
  have hblank : ({ fresh t rows with content, next } : Finder).Blank := .of_fresh hr hlog rfl
  have hfast : ∃ tables, ({ ({ fresh t rows with content, next } : Finder).fillFast content.size with next := content.size } : Finder) =
        { fresh t rows with content, next := content.size, tables } ∧
      ({ fresh t rows with content, next := content.size, tables } : Finder).Kept content.size := by
    obtain ⟨tables, he, hk⟩ := fillFast_kept (hblank.kept rfl hsize hnext)
    exact ⟨tables, by rw [he], hk.skip hle⟩
  have hslow (htags : hasTags t.strategy = false) :
      ∃ tables, ({ fresh t rows with content, next } : Finder).fillSlow content.size =
          { fresh t rows with content, next := content.size, tables } ∧
        ({ fresh t rows with content, next := content.size, tables } : Finder).Kept content.size := by
    obtain ⟨tables, he, hfilled, h3⟩ := fillSlow_filled hblank le_rfl hnext hsize hlog htags
    refine ⟨tables, he, .of_tables (hfilled.plain htags) (fun ht => ?_) rfl⟩
    obtain ⟨m, hm, hg⟩ := hfilled.tree ht
    refine ⟨m, hm, hg, fun k => ?_⟩
    rw [h3, hblank.hash3]
    exact hg.pos
  unfold fillInput
  rcases hs : t.strategy <;> rw [show (fresh t rows).tuning.strategy = t.strategy from rfl, hs]
  case fast => exact hfast
  case dfast => exact hfast
  all_goals exact hslow (by rw [hs]; rfl)

theorem load_input_kept (before : ByteArray) (hr : Rowless t rows) (hlog : 2 ≤ t.chainLog) :
    ∃ next tables, (fresh t rows).load before true fillInput = { fresh t rows with content := emptyContent ++ before, next, tables } ∧
      ({ fresh t rows with content := emptyContent ++ before, next, tables } : Finder).Kept (emptyContent ++ before).size := by
  have hfirst : firstPosition = 2 := rfl
  have hsize : (emptyContent ++ before).size = firstPosition + before.size := by
    rw [size_append, size_emptyContent]
  have hnext : 0 < (emptyContent ++ before).size - min before.size (mostEntered t) := by omega
  unfold load
  dsimp only
  split
  · exact ⟨_, _, rfl, Blank.kept (.of_fresh hr hlog rfl) rfl (by omega) hnext⟩
  · obtain ⟨tables, he, hkept⟩ := fillInput_kept hr hlog hnext (Nat.sub_le _ _)
    exact ⟨_, tables, he, hkept⟩

end ZstCodec.Match.Finder

namespace ZstCodec.Compress

open Match

/-! ### Jobs -/

/-- Jobs for a frame with the window of `t`. -/
structure Jobs.Fits (jobs : Jobs) (t : Tuning) : Prop where
  size_pos : 0 < jobs.size
  usable : jobs.tuning.Usable
  windowLog : jobs.tuning.windowLog = t.windowLog

namespace Writer

/-- A further job counts on nothing that its reader remembers. -/
theorem nextJob_steady (w : Writer) (hu : jobs.tuning.Usable) (before : ByteArray) (size : Nat) :
    (w.nextJob jobs before size).finder.content = Finder.emptyContent ++ before ∧
      (w.nextJob jobs before size).Steady ⟨0, 0, 0⟩ (Finder.emptyContent ++ before).size := by
  have hsize : (Finder.emptyContent ++ before).size = firstPosition + before.size := by
    rw [size_append, Finder.size_emptyContent]
  have hle : firstPosition ≤ (Finder.emptyContent ++ before).size := by omega
  obtain ⟨next, tables, he, hkept⟩ := Finder.load_input_kept before (Finder.rowless_usesRows jobs.tuning) hu.two_le_chain
  unfold nextJob
  dsimp only
  rw [he]
  refine ⟨rfl, ⟨le_rfl, le_rfl, hle, le_rfl, hle, .inl rfl, nofun, ⟨hkept, fun _ => hu.two_le_chain, nofun⟩⟩, rfl, hu,
    .refl _ _, ⟨fun _ => rfl, fun _ => rfl⟩, .inr ⟨rfl, rfl⟩, nofun, nofun⟩

/-- The writer `w` starts a job at `i` of `input`, which is the end of the content `b` of the frame; the writer's own
content stands there `d` places further on. The reader remembers `r`, and the writer counts on `known`. -/
structure AtJob (w : Writer) (place : Int) (p : Plan) (y : Layout) (b input : ByteArray) (jobs : Jobs) (i d : Nat) (known r : Reps) : Prop where
  steady : w.Steady known w.finder.content.size
  place : Reps.Told known ∨ place = w.places.next
  covers : Reps.Covers r known
  moved : Moved w.finder.content b firstPosition w.finder.content.size d
  here : w.finder.content.size + d = y.origin + i
  passes : w.layout.Passes y d
  pledged : w.plan.pledged = none ∨ ∃ n, w.plan.pledged = some n ∧ min input.size (i + jobs.size) ≤ i + n
  consumed : w.consumed = 0
  stage : w.stage ≠ .created
  checksum : w.plan.checksum = p.checksum

variable {w : Writer} {place : Int} {p : Plan} {y : Layout} {b input : ByteArray} {jobs : Jobs} {i j d : Nat} {known r : Reps}

section

variable (h : w.AtJob place p y b input jobs i d known r) (hb : Moved input b 0 input.size y.origin)

include h hb

theorem AtJob.moved_append (hij : i ≤ j)
    (hj : j ≤ input.size) :
    Moved (w.finder.content ++ slice input i j) b firstPosition (w.finder.content ++ slice input i j).size d := by
  have hsize : (w.finder.content ++ slice input i j).size = w.finder.content.size + (j - i) := by
    rw [size_append, size_slice_of_le hj]
  have hhere := h.here
  refine ⟨le_rfl, ?_, fun q hq hlt => ?_⟩
  · have := hb.add_le_size
    omega
  · rw [byteAt_append]
    split
    · exact h.moved.byte q hq ‹_›
    · have := hb.byte (i + (q - w.finder.content.size)) (Nat.zero_le _) (by omega)
      grind [byteAt_slice_of_lt]

theorem AtJob.add (hi : i < input.size)
    (hpos : 0 < jobs.size) (hj : j = min input.size (i + jobs.size)) (last : Bool) :
    ∃ w' bytes r', w.add place (slice input i j) last = (w', .ok (w.opening ++ bytes)) ∧ w'.plan = w.plan ∧
      (last = true → w'.stage = .ending) ∧ Parts y b last (y.origin + j) (y.origin + i) w.coding r bytes w'.coding r' := by
  have hsize : (slice input i j).size = j - i := size_slice_of_le (by omega)
  obtain ⟨finder, longDistance, coding, reps, places, firstBlock, bytes, known', hadd, hc, hparts, -, -⟩ :=
    add_steady _ last h.stage (hsize.symm ▸ (by omega : j - i ≠ 0)) h.steady h.place
  replace hadd := hadd w.aside rfl
  have hmoved := h.moved_append hb (show i ≤ j by omega) (by omega)
  rw [hc] at hparts
  obtain ⟨r', hparts', -⟩ := hparts.moved hmoved le_rfl (le_trans h.steady.rests.first_le
    (le_trans h.steady.rests.low_le h.steady.rests.start_le)) le_rfl h.passes h.covers
  rw [size_append, hsize, h.here, show w.finder.content.size + (j - i) + d = y.origin + j by have := h.here; omega] at hparts'
  have hanswer : answer w.plan (w.consumed + (slice input i j).size) (w.opening ++ bytes) = .ok (w.opening ++ bytes) := by
    unfold answer
    rcases h.pledged with hp | ⟨n, hp, hn⟩
    · rw [hp]
    · rw [hp, h.consumed, hsize]
      exact if_neg (by omega)
  rw [put_aside, hanswer] at hadd
  exact ⟨_, bytes, r', hadd, rfl, fun hl => if_pos hl, hparts'⟩

end

theorem AtJob.next {w' : Writer} (r' : Reps) (h : w.AtJob place p y b input jobs i d known r) (hb : Moved input b 0 input.size y.origin)
    (hfits : jobs.Fits p.tuning) (hy : y.windowLog = p.tuning.windowLog) (hblock : y.blockSize = min Block.maxSize (max 1 (min (2 ^ p.tuning.windowLog) input.size)))
    (hplan : w'.plan = w.plan) (hij : i ≤ j) (hj : j ≤ input.size) :
    (w'.nextJob jobs (slice input (j - min (j - i) jobs.overlap) j) (min (j + jobs.size) input.size - j)).AtJob
      (w'.nextJob jobs (slice input (j - min (j - i) jobs.overlap) j) (min (j + jobs.size) input.size - j)).places.next p y b input jobs j
      (y.origin + j - (firstPosition + min (j - i) jobs.overlap)) ⟨0, 0, 0⟩ r' := by
  generalize hm : min (j - i) jobs.overlap = m
  have hbefore : (slice input (j - m) j).size = m := by
    rw [size_slice_of_le hj]
    omega
  have hfirst : firstPosition ≤ y.origin + i := by
    have h1 := h.steady.rests.first_le
    have h2 := h.steady.rests.low_le
    have h3 := h.steady.rests.start_le
    have h4 := h.here
    omega
  obtain ⟨hcontent, hsteady⟩ := w'.nextJob_steady hfits.usable (slice input (j - m) j) (min (j + jobs.size) input.size - j)
  have hsize : (Finder.emptyContent ++ slice input (j - m) j).size = firstPosition + m := by
    rw [size_append, Finder.size_emptyContent, hbefore]
  rw [← hcontent] at hsteady
  refine ⟨hsteady, .inr rfl, .nothing _, ?_, ?_, ?_, .inr ⟨_, rfl, by omega⟩, rfl, show Stage.ongoing ≠ .created by decide, ?_⟩
  · rw [hcontent]
    refine ⟨le_rfl, ?_, fun q hq hlt => ?_⟩
    · have := hb.add_le_size
      omega
    · have hq' : firstPosition + (q - firstPosition) = q := by omega
      have hright := byteAt_append_right (a := Finder.emptyContent) (b := slice input (j - m) j) (q - firstPosition)
      rw [Finder.size_emptyContent, hq'] at hright
      have hplace : j - m + (q - firstPosition) + y.origin = q + (y.origin + j - (firstPosition + m)) := by omega
      rw [hright, byteAt_slice_of_lt (by omega), ← hb.byte _ (Nat.zero_le _) (by omega), hplace]
  · rw [hcontent, hsize]
    omega
  · refine ⟨?_, fun {k window} hallows => ?_⟩
    · show Plan.blockSize _ ≤ _
      rw [hblock, Plan.blockSize, Plan.windowSize]
      dsimp only [nextJob]
      rw [hfits.windowLog]
      omega
    · have hlog : (w'.nextJob jobs (slice input (j - m) j) (min (j + jobs.size) input.size - j)).layout.windowLog = y.windowLog :=
        hfits.windowLog.trans hy.symm
      unfold Layout.Allows at hallows
      rw [hlog] at hallows
      rcases hallows with hw | ⟨hk, -⟩
      · exact ⟨window, .inl hw, .inl le_rfl⟩
      · exact ⟨2 ^ y.windowLog, .inl le_rfl, .inr hk⟩
  · show w'.plan.checksum = _
    rw [hplan]
    exact h.checksum

theorem closing_congr (h : q.checksum = p.checksum) (b : ByteArray) (i : Nat) : closing q b i = closing p b i := by
  unfold closing
  rw [h]

theorem writeJobs_spec (hb : Moved input b 0 input.size y.origin) (hend : b.size = y.origin + input.size) (hfits : jobs.Fits p.tuning)
    (hy : y.windowLog = p.tuning.windowLog) (hblock : y.blockSize = min Block.maxSize (max 1 (min (2 ^ p.tuning.windowLog) input.size)))
    (fuel : Nat) :
    ∀ (w : Writer) (place : Int) (i d : Nat) (known r : Reps) (out : ByteArray), w.AtJob place p y b input jobs i d known r → i < input.size →
      input.size < i + fuel →
      ∃ bytes, (w.writeJobs jobs place input i out fuel).2 = .ok (out ++ (w.opening ++ (bytes ++ closing p input 0))) ∧
        Blocks y b true b.size false (y.origin + i) w.coding r bytes := by
  have hpos := hfits.size_pos
  induction fuel with
  | zero =>
    omega
  | succ fuel ih =>
    intro w place i d known r out h hi hfuel
    rw [writeJobs]
    generalize hj : min input.size (i + jobs.size) = j
    obtain ⟨w', bytes, r', hadd, hplan, hstage, hparts⟩ := h.add hb hi hpos hj.symm (decide (j = input.size))
    rw [hadd]
    dsimp only
    by_cases hlast : j = input.size
    · rw [decide_eq_true hlast] at hparts hstage
      have hchecksum : w'.plan.checksum = p.checksum := by rw [hplan]; exact h.checksum
      rw [if_pos hlast, ending_eq, if_pos (hstage rfl), empty_append, closing_congr hchecksum]
      refine ⟨bytes, by simp only [append_assoc], ?_⟩
      grind [Blocks.of_marked]
    · rw [decide_eq_false hlast] at hparts
      have hnext := h.next r' (j := j) hb hfits hy hblock hplan (by omega) (by omega)
      obtain ⟨bytes', hout, hblocks⟩ := ih _ _ _ _ _ _ (out ++ (w.opening ++ bytes)) hnext (by omega) (by omega)
      have hopening : (w'.nextJob jobs (slice input (j - min (j - i) jobs.overlap) j) (min (j + jobs.size) input.size - j)).opening =
          .empty := if_neg (show Stage.ongoing ≠ .beforeHeader by decide)
      rw [hopening, empty_append] at hout
      refine ⟨bytes ++ bytes', ?_, .of_parts hparts (by omega) (.inr ⟨rfl, by omega⟩) hblocks⟩
      grind [append_assoc]

/-- What the jobs of a frame give is a frame of its content. -/
theorem finishInJobs_spec (h : w.Begins r) (hp : w.plan.pledged = some data.size) (hne : data.size ≠ 0)
    (hfits : jobs.Fits w.plan.tuning) :
    ∃ frame, (w.finishInJobs jobs data).2 = .ok frame ∧ w.Frames r data frame := by
  have hsize : (w.finder.content ++ data).size = w.layout.origin + data.size := by
    rw [size_append, show w.layout.origin = w.finder.content.size from h.origin]
  have hb : Moved data (w.finder.content ++ data) 0 data.size w.layout.origin := by
    refine ⟨le_rfl, by omega, fun q _ _ => ?_⟩
    rw [show w.layout.origin = w.finder.content.size from h.origin, add_comm]
    exact byteAt_append_right q
  have hjob : w.AtJob directPlace w.plan w.layout (w.finder.content ++ data) data jobs 0 0 r r := by
    have hmoved := Moved.append w.finder.content data
    refine ⟨h.sound.steady, .inl h.sound.known, .refl r, ⟨hmoved.le_size, hmoved.add_le_size, fun q _ hq => hmoved.byte q (Nat.zero_le _) hq⟩,
      h.origin.symm, .refl _, .inr ⟨_, hp, by omega⟩, h.consumed, by rw [h.stage]; decide, rfl⟩
  have hblock : w.layout.blockSize = min Block.maxSize (max 1 (min (2 ^ w.plan.tuning.windowLog) data.size)) := by
    show w.plan.blockSize = _
    rw [Plan.blockSize, Plan.windowSize, hp]
  obtain ⟨bytes, hout, hblocks⟩ := writeJobs_spec hb hsize hfits rfl hblock (data.size + 1) w directPlace 0 0 r r .empty hjob
    (by omega) (by omega)
  have hclosing : closing w.plan data 0 = closing w.plan (w.finder.content ++ data) w.origin := by
    unfold closing
    rw [XxHash64.range_eq_hash (Nat.zero_le _) (Nat.le_refl _), slice_all,
      XxHash64.range_eq_hash (by rw [h.origin, size_append]; omega) le_rfl, h.origin, slice_append_right]
  have hopening : w.opening = w.plan.header := if_pos h.stage
  rw [empty_append, hopening, hclosing] at hout
  refine ⟨_, ?_, bytes, rfl, hblocks⟩
  grind [finishInJobs]

end Writer

end ZstCodec.Compress
