import ZstCodec.Proofs.Compress.Parts

/-! # What writing blocks does not look at

Blocks are written without a look at the places of the pieces, at what the header is to say and at the output before them
(`writeBlocks_put`). -/

namespace ZstCodec.Compress.Writer

/-- What a writer does not look at while it writes blocks. -/
structure Aside where
  places : Places
  format : Frame.Format
  contentSizeFlag : Bool
  checksum : Bool
  dictId : Nat

variable {w : Writer} (a : Aside) (i j : Nat) (last : Bool) (cut : Block.Cut) (out : ByteArray)

def put (w : Writer) (a : Aside) : Writer :=
  { w with
    places := a.places
    plan := { w.plan with format := a.format, contentSizeFlag := a.contentSizeFlag, checksum := a.checksum, dictId := a.dictId } }

def aside (w : Writer) : Aside := ⟨w.places, w.plan.format, w.plan.contentSizeFlag, w.plan.checksum, w.plan.dictId⟩

theorem put_aside (w : Writer) : w.put w.aside = w := rfl

@[simp] theorem put_finder (w : Writer) : (w.put a).finder = w.finder := rfl

theorem findLong_put (w : Writer) : (w.put a).findLong i j = ((w.findLong i j).1.put a, (w.findLong i j).2) := by
  obtain ⟨plan, finder, longDistance⟩ := w
  cases longDistance <;> rfl

theorem parseBlock_put (w : Writer) : (w.put a).parseBlock i j = ((w.parseBlock i j).1.put a, (w.parseBlock i j).2) := by
  unfold parseBlock
  rw [findLong_put]
  rfl

theorem store_put (w : Writer) : (w.put a).store i j last out = out ++ w.store i j last .empty := by
  rw [store, store, copySlice_end, copySlice_end, header_eq_append, append_assoc]
  rfl

theorem writeCut_put (w : Writer) (reps : Reps) : (w.put a).writeCut i j last cut reps out =
    ((w.writeCut i j last cut reps .empty).1.put a, out ++ (w.writeCut i j last cut reps .empty).2) := by
  unfold writeCut
  by_cases hrun : w.repeats i j (Block.writeShorter w.plan.policy (j - i) (cut.literals w.finder.content) cut.seqs w.coding) = true
  · refine (if_pos hrun).trans ?_
    rw [if_pos hrun, storeRun_eq, storeRun_eq, empty_append]
    rfl
  · refine (if_neg hrun).trans ?_
    rw [if_neg hrun, store_put]
    rw [show Block.writeShorter (w.put a).plan.policy (j - i) (cut.literals (w.put a).finder.content) cut.seqs (w.put a).coding =
      Block.writeShorter w.plan.policy (j - i) (cut.literals w.finder.content) cut.seqs w.coding from rfl]
    rcases Block.writeShorter w.plan.policy (j - i) (cut.literals w.finder.content) cut.seqs w.coding with _ | ⟨body, coding⟩
    · rfl
    · dsimp only
      rw [header_eq_append, append_assoc]
      rfl

theorem writeParts_put (ends : List Nat) (w : Writer) (k : Nat) (meant : Reps) : (w.put a).writeParts i j k last cut meant out ends =
    ((w.writeParts i j k last cut meant .empty ends).1.put a, out ++ (w.writeParts i j k last cut meant .empty ends).2) := by
  induction ends generalizing w a i k meant out with
  | nil => exact writeCut_put ..
  | cons stop ends ih =>
    rw [writeParts, writeParts]
    dsimp only
    rw [show (w.put a).reps = w.reps from rfl, writeCut_put]
    generalize w.writeCut _ _ _ _ _ _ = r
    -- the parts behind the first one go on from its output
    have hnext := ih r.1.aside (i + Block.spanOf (Block.retell w.reps meant #[] (cut.seqs.extract k stop).toList).1) r.2 r.1 stop
      (Block.retell w.reps meant #[] (cut.seqs.extract k stop).toList).2.2
    grind [put_aside, append_assoc]

theorem writeBlock_put (w : Writer) :
    (w.put a).writeBlock i j last out = ((w.writeBlock i j last .empty).1.put a, out ++ (w.writeBlock i j last .empty).2) := by
  unfold writeBlock
  rw [parseBlock_put]
  generalize w.parseBlock i j = r
  obtain ⟨w', reps, cut⟩ := r
  by_cases hshort : j - i < leastSearched
  · rw [if_pos hshort, if_pos hshort, store_put]
    rfl
  · rw [if_neg hshort, if_neg hshort]
    generalize hends : (if w'.plan.splits = true then
      Block.cuts w'.plan.policy w'.coding (cut.literals w'.finder.content) cut.seqs else #[]) = ends
    have hends' : (if (w'.put a).plan.splits = true then
      Block.cuts (w'.put a).plan.policy (w'.put a).coding (cut.literals (w'.put a).finder.content) cut.seqs else #[]) = ends := hends
    dsimp only
    rw [hends, hends', writeCut_put, writeParts_put]
    split <;> rfl

/-- The blocks are the same whatever lies aside and whatever has been put out before. -/
theorem writeBlocks_put (fuel : Nat) (w : Writer) :
    (w.put a).writeBlocks last out i fuel = ((w.writeBlocks last .empty i fuel).1.put a, out ++ (w.writeBlocks last .empty i fuel).2) := by
  induction fuel generalizing w a out i with
  | zero => exact Prod.ext rfl append_empty.symm
  | succ fuel ih =>
    rw [writeBlocks, writeBlocks]
    dsimp only
    rw [put_finder, show (w.put a).plan.blockSize = w.plan.blockSize from rfl]
    by_cases hover : w.finder.content.size ≤ i
    · simp_all
    · rw [if_neg hover, if_neg hover]
      generalize min w.finder.content.size (i + w.plan.blockSize) = j
      have hblock := writeBlock_put a i j (last && decide (j = w.finder.content.size)) out { w with finder := limitWindow w.finder i j }
      refine (congrArg (fun r : Writer × ByteArray => r.1.writeBlocks last r.2 j fuel) hblock).trans ?_
      generalize Writer.writeBlock _ _ _ _ _ = r
      have hnext := ih r.1.aside j r.2 r.1
      grind [put_aside, append_assoc]

/-- Nor does a piece that is added look at what the header is to say. -/
theorem extend_put (ha : a.places = w.places) (place : Int) (piece : ByteArray) :
    (w.put a).extend place piece = (w.extend place piece).put { a with places := (w.extend place piece).places } := by
  obtain ⟨places, format, contentSizeFlag, checksum, dictId⟩ := a
  cases ha
  rfl

end ZstCodec.Compress.Writer
