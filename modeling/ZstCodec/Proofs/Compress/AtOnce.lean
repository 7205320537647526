import ZstCodec.Proofs.Compress.Due
import ZstCodec.Proofs.Compress.Jobs

/-! # Compressing at once

A call that brings all of the content, with room for any frame of it, writes the frame directly. -/

namespace ZstCodec.Compress

open Match

variable {s : Settings} {D : DictionaryChoice} {x : Context} {data : ByteArray}

variable {frame : ByteArray} {jobs : Jobs} {free : Nat} {pledged : Option Nat} {r : Reps} {w : Writer}

/-- A writer that gets all of the content at once writes a whole frame of it. -/
theorem Writer.Begins.finish_direct (h : w.Begins r) (hp : w.plan.pledged = none ∨ w.plan.pledged = some data.size) :
    ∃ frame, (w.finish directPlace data).2 = .ok frame ∧ w.Frames r data frame := by
  have hfollows : Intake.Follows ⟨w, 0, 2 ^ 60, data, 2 ^ 60 + data.size + 1⟩ w r data .empty := by
    refine ⟨h, rfl, rfl, rfl, ?_, .inl ⟨h.stage, h.consumed⟩, ⟨.empty, r, ?_, ?_, h.sound⟩, Nat.lt_succ_self _⟩
    · rw [h.consumed, zero_add]
    · rw [if_pos h.stage, append_empty]
    · rw [h.origin]
      exact .nil _ _
  obtain ⟨frame, hfin, hwhole, -⟩ := hfollows.finish hp
  exact ⟨frame, hfin, .of_whole h.origin hwhole⟩

/-- So does one that cuts the content into jobs. -/
theorem Writer.Begins.finishAtOnce (h : w.Begins r) (hp : w.plan.pledged = some data.size)
    (hjobs : ∀ jobs, w.plan.jobs = some jobs → jobs.Fits w.plan.tuning ∧ data.size ≠ 0) :
    ∃ frame, (w.finishAtOnce data).2 = .ok frame ∧ w.Frames r data frame := by
  unfold Writer.finishAtOnce
  rcases hj : w.plan.jobs with _ | jobs
  · exact h.finish_direct (.inr hp)
  · dsimp only
    rw [if_pos h.stage]
    simp_all [finishInJobs_spec]

/-- A frame that has taken nothing is written directly if there is room for it. -/
theorem Running.stepLoad_direct {r : Running} (hpos : r.pos = 0) (hfree : bound data.size ≤ free)
    (h : (r.writer.finishAtOnce data).2 = .ok frame) :
    ∃ writer, r.stepLoad { input := data, pos := 0, free, directive := .finish } =
      { running := { r with writer, ended := true }
        call := { input := data, pos := data.size, out := frame, free := free - frame.size, directive := .finish }
        complete := true, stop := true } := by
  simp_all [Running.stepLoad, slice_all]

/-- A call with room enough for the frame of all its input gives that frame. -/
theorem Context.run_direct (hx : x.Has s D) (hrun : x.running = none) (hfree : bound data.size ≤ free)
    (h : ((firstIntake s D (some data.size)).writer.finishAtOnce data).2 = .ok frame) :
    ∃ x', x.run data 0 free .finish = (x', { pos := data.size, out := frame, result := .ok 0 }) ∧ x'.Has s D ∧ x'.Idle none := by
  have hstart : (start s D (some data.size)).flushing = false ∧ (start s D (some data.size)).pos = 0 ∧
      (start s D (some data.size)).waiting.size = 0 := ⟨rfl, rfl, rfl⟩
  have hframe : x.frame s D (some data.size) = start s D (some data.size) := by rw [Context.frame, hrun, Option.getD_none]
  unfold firstIntake Running.intake at h
  generalize start s D (some data.size) = r at h hstart hframe
  obtain ⟨hflush, hpos, hwaiting⟩ := hstart
  obtain ⟨writer, hload⟩ := Running.stepLoad_direct hpos hfree h
  have hsteps : (x.frame s D (some data.size)).steps { input := data, pos := 0, free, directive := .finish } (2 * (data.size - 0) + 8) =
      { running := { r with writer, ended := true }
        call := { input := data, pos := data.size, out := frame, free := free - frame.size, directive := .finish }
        complete := true, stop := true } := by
    rw [hframe, Running.steps, if_neg (show ¬ r.flushing = true from by rw [hflush]; exact Bool.false_ne_true), hload]
    rfl
  have hp : (if Directive.finish = .finish then some (data.size - 0) else x.pledged) = some data.size := by
    rw [if_pos rfl, Nat.sub_zero]
  obtain ⟨x', heq, hhas, hidle, -⟩ := run_of_steps hx hp hsteps
  refine ⟨x', ?_, hhas, hidle rfl⟩
  rw [heq, show Running.waiting { r with writer, ended := true } = r.waiting from rfl, hwaiting]

/-- Input is cut into jobs if there is some, and the jobs have the window of the frame. -/
theorem jobs_of_planOf (hu : own.Usable)
    (ht : own.windowLog = t.windowLog) (h : (planOf s t rows own dictId pledged).jobs = some jobs) :
    jobs.Fits t ∧ ∃ n, pledged = some n ∧ n ≠ 0 := by
  replace h : Jobs.of s own pledged = some jobs := h
  unfold Jobs.of at h
  rcases pledged with _ | n
  · cases h
  dsimp only at h
  split at h
  · cases h
  · rename_i hn
    simp only [Bool.or_eq_true, decide_eq_true_eq, not_or] at hn
    cases h
    refine ⟨⟨?_, hu, ht⟩, n, rfl, by omega⟩
    grind

theorem Dictionary.windowLog_tuning (d : Dictionary) (attach : Bool) (pledged : Option Nat) (windowLog : Nat) :
    (d.tuning attach pledged windowLog).windowLog = windowLog := by
  simp_all [Dictionary.tuning]

namespace Context

theorem firstIntake_jobs (hs : s.Valid) (hD : D.Ready)
    (h : (firstIntake s D pledged).writer.plan.jobs = some jobs) :
    jobs.Fits (firstIntake s D pledged).writer.plan.tuning ∧ ∃ n, pledged = some n ∧ n ≠ 0 := by
  cases D with
  | none => exact jobs_of_planOf (hs.tuning s.level pledged (show 0 < 2 ^ 63 by decide) .plain) rfl h
  | loaded => exact hD.elim
  | own d => exact jobs_of_planOf (hs.tuning _ pledged hD.2 _) (d.windowLog_tuning _ _ _).symm h
  | prepared d => exact jobs_of_planOf (hs.tuning _ pledged hD.2 _) (d.windowLog_tuning _ _ _).symm h

theorem direct_frames (hs : s.Valid) (hD : D.Ready) (data : ByteArray) :
    ∃ frame, ((firstIntake s D (some data.size)).writer.finishAtOnce data).2 = .ok frame ∧
      (firstIntake s D (some data.size)).writer.Frames D.reps data frame := by
  obtain ⟨hfollows, hpledged, -⟩ := firstIntake_follows hs hD (some data.size)
  refine hfollows.begins.finishAtOnce hpledged fun jobs hj => ?_
  grind [firstIntake_jobs]

end Context

end ZstCodec.Compress
