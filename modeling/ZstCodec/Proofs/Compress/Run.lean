import ZstCodec.Proofs.Compress.Intake

/-! # What a call of a compressor does

A call moves output into the room it is given, and input to the intake of the frame. Whatever the room, the output given
and the output that waits are together what the intake has written (`Context.run_more`, `Context.run_flush`,
`Context.run_finish`), and output waits only behind a full room. -/

namespace ZstCodec.Compress

variable {input : ByteArray} {pos : Nat} {r' : Running}

/-- `x` is poured into the room of a call; `w` of it finds none. -/
structure Call.Pours (c : Call) (x : ByteArray) (c' : Call) (w : ByteArray) : Prop where
  out : c'.out ++ w = c.out ++ x
  room : c'.out.size + c'.free = c.out.size + c.free
  full : w.size ≠ 0 → c'.free = 0
  input : c'.input = c.input
  directive : c'.directive = c.directive

namespace Call.Pours

variable {c c' c'' : Call} {x y w : ByteArray}

theorem trans (h : c.Pours x c' .empty) (h' : c'.Pours y c'' w) : c.Pours (x ++ y) c'' w where
  out := by
    have := h.out
    rw [append_empty] at this
    rw [h'.out, this, append_assoc]
  room := h'.room.trans h.room
  full := h'.full
  input := h'.input.trans h.input
  directive := h'.directive.trans h.directive

theorem nothing (c : Call) (pos : Nat) : c.Pours .empty { c with pos } .empty where
  out := rfl
  room := rfl
  full h := absurd rfl h
  input := rfl
  directive := rfl

theorem given {free : Nat} {directive : Directive} (h : Call.Pours ⟨input, pos, free, directive, .empty⟩ x c' w) :
    c'.out ++ w = x ∧ c'.out.size ≤ free ∧ (w.size ≠ 0 → c'.out.size = free) := by
  have hroom : c'.out.size + c'.free = free := h.room.trans (zero_add _)
  refine ⟨h.out.trans empty_append, by omega, fun hw => ?_⟩
  have := h.full hw
  omega

end Call.Pours

/-- The frame will not be cut into jobs; none is once some of it has been taken. -/
def Intake.Undivided (k : Intake) : Prop := k.writer.plan.jobs = none ∨ k.writer.stage ≠ .beforeHeader ∨ k.pending.size ≠ 0

theorem Intake.Undivided.finishAtOnce {k : Intake} (h : k.Undivided) (h0 : k.pending.size = 0) (input : ByteArray) :
    k.writer.finishAtOnce input = k.writer.finish directPlace input := by
  unfold Writer.finishAtOnce
  rcases h with h | h | h
  · rw [h]
  · split
    · rw [if_neg h]
    · rfl
  · exact absurd h0 h

namespace Running

variable {r : Running} {c : Call} {k k' : Intake} {w bytes : ByteArray}

def waiting (r : Running) : ByteArray := slice r.out r.given r.out.size

/-- A frame with the intake `k`, of which the output `w` waits. -/
structure Holds (r : Running) (k : Intake) (w : ByteArray) : Prop where
  intake : r.intake = k
  waiting : r.waiting = w
  calm : r.flushing = false → w = .empty
  going : r.ended = false

/-- A frame that has ended, of which the output `w` waits. -/
structure Ends (r : Running) (w : ByteArray) : Prop where
  waiting : r.waiting = w
  flushing : r.flushing = true
  ended : r.ended = true

/-- What waits is given out, and if that is not all of it the call stops. -/
theorem stepFlush_spec (r : Running) (c : Call) :
    ∃ r' c' w, c.Pours r.waiting c' w ∧ c'.pos = c.pos ∧ r'.waiting = w ∧ r'.intake = r.intake ∧ r'.ended = r.ended ∧
      (w.size ≠ 0 ∧ r'.flushing = r.flushing ∧ r.stepFlush c = { running := r', call := c', stop := true } ∨
        w = .empty ∧ r'.flushing = false ∧
          r.stepFlush c = { running := r', call := c', complete := r.ended, stop := r.ended }) := by
  have hsize : r.waiting.size = r.out.size - r.given := by
    rw [waiting, size_slice_of_le le_rfl]
  unfold stepFlush
  dsimp only
  rw [copySlice_end]
  by_cases hlt : c.free < r.out.size - r.given
  · have hn : min c.free (r.out.size - r.given) = c.free := by omega
    rw [hn, if_pos (show r.given + c.free < r.out.size by omega)]
    refine ⟨{ r with given := r.given + c.free },
      { c with out := c.out ++ slice r.out r.given (r.given + c.free), free := c.free - c.free },
      slice r.out (r.given + c.free) r.out.size, ⟨?_, ?_, fun _ => Nat.sub_self _, rfl, rfl⟩, rfl, rfl, rfl, rfl,
      .inl ⟨?_, rfl, rfl⟩⟩
    · grind [append_assoc, slice_append_slice, waiting]
    · grind [size_slice_of_le]
    · rw [size_slice_of_le le_rfl]
      omega
  · have hn : min c.free (r.out.size - r.given) = r.out.size - r.given := by omega
    have hall : slice r.out r.given (r.given + (r.out.size - r.given)) = r.waiting := by
      rw [waiting]
      rcases le_total r.given r.out.size with h | h
      · rw [Nat.add_sub_cancel' h]
      · simp_all [slice_of_le]
    rw [hn, hall, if_neg (show ¬ r.given + (r.out.size - r.given) < r.out.size by omega)]
    refine ⟨{ r with out := .empty, given := 0, flushing := false },
      { c with out := c.out ++ r.waiting, free := c.free - (r.out.size - r.given) }, .empty,
      ⟨?_, ?_, fun h => absurd rfl h, rfl, rfl⟩, rfl, slice_self _ _, rfl, rfl, .inr ⟨rfl, rfl, ?_⟩⟩
    · exact append_empty
    · simp_all
    · cases r.ended <;> rfl

theorem stepWrite_spec (hi : r.intake = k) (hl : ¬ (c.directive = .finish ∧ c.pos = c.input.size)) (hw : k.write = .ok (k', bytes)) :
    ∃ r' : Running, r.stepWrite c = r'.stepFlush c ∧ r'.Holds k' bytes ∧ r'.flushing = true := by
  have hlast : (decide (c.directive = .finish) && decide (c.pos = c.input.size)) = false := by
    rw [Bool.and_eq_false_iff, decide_eq_false_iff_not, decide_eq_false_iff_not]
    exact Decidable.not_and_iff_or_not.1 hl
  subst hi
  unfold Intake.write at hw
  unfold stepWrite
  dsimp only [intake] at hw ⊢
  rw [hlast, if_neg Bool.false_ne_true]
  generalize r.writer.add r.start r.pending false = p at hw ⊢
  obtain ⟨writer, result⟩ := p
  rcases result with e | bytes'
  · cases hw
  cases hw
  refine ⟨_, rfl, ⟨?_, slice_all _, (by intro h; cases h), rfl⟩, rfl⟩
  by_cases hring : r.ring < r.start + r.pending.size + writer.plan.blockSize
  · rw [if_pos hring]
    exact (if_pos hring).symm
  · rw [if_neg hring]
    exact (if_neg hring).symm

theorem stepFinish_spec (hi : r.intake = k) (hl : c.directive = .finish ∧ c.pos = c.input.size) (hw : k.finish = .ok bytes) :
    ∃ r' : Running, r.stepWrite c = r'.stepFlush c ∧ r'.Ends bytes := by
  have hlast : (decide (c.directive = .finish) && decide (c.pos = c.input.size)) = true := by simp [hl.1, hl.2]
  subst hi
  unfold Intake.finish at hw
  unfold stepWrite
  dsimp only [intake] at hw ⊢
  rw [hlast, if_pos rfl]
  generalize r.writer.finish r.start r.pending = p at hw ⊢
  obtain ⟨writer, result⟩ := p
  subst hw
  exact ⟨_, rfl, slice_all _, rfl, rfl⟩

theorem steps_of_stop (fuel : Nat) (h : (if r.flushing then r.stepFlush c else r.stepLoad c) = s) (hs : s.stop = true) :
    r.steps c (fuel + 1) = s := by
  rw [steps, h]
  exact if_pos hs

theorem step_flushing (h : r.flushing = true) : (if r.flushing then r.stepFlush c else r.stepLoad c) = r.stepFlush c := by
  rw [h, if_pos rfl]

theorem step_loading (h : r.flushing = false) : (if r.flushing then r.stepFlush c else r.stepLoad c) = r.stepLoad c := by
  rw [h, if_neg Bool.false_ne_true]

/-- Once a block has been written, the call goes on as one that finds it waiting. -/
theorem steps_of_write (fuel : Nat) (h : r.flushing = false) (hload : r.stepLoad c = r'.stepFlush c') (h' : r'.flushing = true) :
    r.steps c (fuel + 1) = r'.steps c' (fuel + 1) := by
  simp_all [steps.eq_2]

/-- Output that waits is given out first. The call goes on once none waits. -/
theorem Holds.steps_flushing (hh : r.Holds k w) (hfl : r.flushing = true) (c : Call) (fuel : Nat) :
    ∃ r' c' w', c.Pours w c' w' ∧ c'.pos = c.pos ∧ r'.Holds k w' ∧
      (w'.size ≠ 0 ∧ r.steps c (fuel + 1) = { running := r', call := c', stop := true } ∨
        w' = .empty ∧ r'.flushing = false ∧ r.steps c (fuel + 1) = r'.steps c' fuel) := by
  obtain ⟨r', c', w', hpours, hpos, hw', hi, hend, hcase⟩ := r.stepFlush_spec c
  rw [hh.waiting] at hpours
  rw [hh.intake] at hi
  rw [hh.going] at hend
  rw [steps, step_flushing hfl]
  rcases hcase with ⟨hne, hfl', hstep⟩ | ⟨rfl, hfl', hstep⟩
  · refine ⟨r', c', w', hpours, hpos, ⟨hi, hw', fun h => ?_, hend⟩, .inl ⟨hne, ?_⟩⟩
    · rw [hfl', hfl] at h
      cases h
    · rw [hstep]
      exact if_pos rfl
  · refine ⟨r', c', .empty, hpours, hpos, ⟨hi, hw', fun _ => rfl, hend⟩, .inr ⟨rfl, hfl', ?_⟩⟩
    rw [hstep, hh.going]
    exact if_neg Bool.false_ne_true

theorem Ends.steps (hr : r.Ends w) (c : Call) (fuel : Nat) :
    ∃ r' c' w' complete, r.steps c (fuel + 1) = { running := r', call := c', complete, stop := true } ∧ c.Pours w c' w' ∧
      c'.pos = c.pos ∧ r'.waiting = w' ∧ (complete = false ∧ w'.size ≠ 0 ∧ r'.Ends w' ∨ complete = true ∧ w' = .empty) := by
  obtain ⟨r', c', w', hpours, hpos, hw', hi, hend, hcase⟩ := r.stepFlush_spec c
  rw [hr.waiting] at hpours
  rw [hr.ended] at hend
  rcases hcase with ⟨hne, hfl', hstep⟩ | ⟨rfl, hfl', hstep⟩
  · rw [steps_of_stop _ ((step_flushing hr.flushing).trans hstep) rfl]
    exact ⟨r', c', w', false, rfl, hpours, hpos, hw', .inl ⟨rfl, hne, hw', hfl'.trans hr.flushing, hend⟩⟩
  · rw [hr.ended] at hstep
    rw [steps_of_stop _ ((step_flushing hr.flushing).trans hstep) rfl]
    simp_all

/-! ### Taking input -/

theorem data_toList_toByteArray (b : ByteArray) : b.data.toList.toByteArray = b := by
  apply ByteArray.ext
  simp

theorem length_toList (b : ByteArray) : b.data.toList.length = b.size := Array.length_toList

/-- Without a directive, input is taken until the block is full, and then the block is written. -/
theorem stepLoad_of_more (hd : c.directive = .more) (hp : c.pos ≤ c.input.size) :
    (r.pos + (c.input.size - c.pos) < r.target ∧ r.stepLoad c =
      { running := { r with pending := r.pending ++ slice c.input c.pos c.input.size }, call := { c with pos := c.input.size }, stop := true }) ∨
    ∃ n, n ≤ c.input.size - c.pos ∧ n = r.target - r.pos ∧ r.stepLoad c =
      ({ r with pending := r.pending ++ slice c.input c.pos (c.pos + n) } : Running).stepWrite { c with pos := c.pos + n } := by
  have hfin : ¬ (decide (c.directive = .finish) && decide (bound (c.input.size - c.pos) ≤ c.free) && decide (r.pos = 0)) = true := by
    simp [hd]
  unfold stepLoad
  dsimp only
  rw [if_neg hfin, copySlice_end]
  generalize hn : min (c.input.size - c.pos) (r.target - r.pos) = n
  have hpos : ({ r with pending := r.pending ++ slice c.input c.pos (c.pos + n) } : Running).pos = r.pos + n := by
    show r.start + (r.pending ++ slice c.input c.pos (c.pos + n)).size = r.start + r.pending.size + n
    rw [size_append, size_slice_of_le (by omega)]
    omega
  by_cases hlt : r.pos + n < r.target
  · left
    rw [if_pos (by rw [hpos]; simp [hd, hlt]), show c.pos + n = c.input.size by omega]
    exact ⟨by omega, rfl⟩
  · right
    rw [if_neg (by rw [hpos]; simp [hlt]), if_neg (by simp [hd])]
    exact ⟨n, by omega, by omega, rfl⟩

theorem stepLoad_more (hh : r.Holds k .empty) (hd : c.directive = .more) (hp : c.pos ≤ c.input.size)
    (hroom : k.pos < k.target) :
    (k.pos + (c.input.size - c.pos) < k.target ∧
      ∃ r', r.stepLoad c = { running := r', call := { c with pos := c.input.size }, stop := true } ∧
        r'.Holds (k.load (slice c.input c.pos c.input.size)) .empty) ∨
    ∃ n, 0 < n ∧ n ≤ c.input.size - c.pos ∧ k.pos + n = k.target ∧
      ∀ {k' bytes}, (k.load (slice c.input c.pos (c.pos + n))).write = .ok (k', bytes) →
        ∃ r' : Running, r.stepLoad c = r'.stepFlush { c with pos := c.pos + n } ∧ r'.Holds k' bytes ∧ r'.flushing = true := by
  obtain ⟨rfl, hw, hcalm, hgo⟩ := hh
  replace hroom : r.pos < r.target := hroom
  refine (stepLoad_of_more (r := r) hd hp).imp ?_ ?_
  · exact fun ⟨hlt, hload⟩ => ⟨hlt, _, hload, rfl, hw, hcalm, hgo⟩
  · rintro ⟨n, hn, hfull, hload⟩
    refine ⟨n, by omega, hn, show r.pos + n = r.target by omega, fun hwrite => ?_⟩
    rw [hload]
    exact stepWrite_spec rfl (fun h => by rw [hd] at h; cases h.1) hwrite

/-- The intake has taken the first `n` bytes of the input, and all of them unless output waits. -/
structure Taken (r : Running) (c : Call) (k : Intake) (w : ByteArray) (r' : Running) (c' : Call) (n : Nat) (k' : Intake)
    (w' : ByteArray) : Prop where
  le : n ≤ c.input.size - c.pos
  pos : c'.pos = c.pos + n
  holds : r'.Holds k' w'
  room : k'.pos < k'.target
  pours : ∃ bytes, k.take (slice c.input c.pos (c.pos + n)).data.toList = .ok (k', bytes) ∧ c.Pours (w ++ bytes) c' w'
  all : w'.size = 0 → n = c.input.size - c.pos

theorem take_slice {out : ByteArray} (hn : n ≤ input.size - i)
    (h : k.take (slice input i input.size).data.toList = .ok (k'', out)) :
    ∃ k' out₁ out₂, k.take (slice input i (i + n)).data.toList = .ok (k', out₁) ∧
      k'.take (slice input (i + n) input.size).data.toList = .ok (k'', out₂) ∧ out = out₁ ++ out₂ := by
  rcases lt_or_ge input.size i with hi | hi
  · have : n = 0 := by omega
    subst this
    refine ⟨k, .empty, out, ?_, h, empty_append.symm⟩
    rw [slice_of_le (by omega)]
    rfl
  · rw [← slice_append_slice (show i ≤ i + n by omega) (by omega), ByteArray.data_append, Array.toList_append] at h
    exact Intake.take_of_append h

theorem Taken.after (h : Taken r₁ c₁ k .empty r' c₂ n k' w₂) (hp : c.Pours w c₁ .empty)
    (hpos : c₁.pos = c.pos) : Taken r c k w r' c₂ n k' w₂ := by
  obtain ⟨hle, hpos', hholds, hroom, ⟨bytes, htake, hpours⟩, hall⟩ := h
  rw [hp.input, hpos] at hle hall htake
  exact ⟨hle, by rw [hpos', hpos], hholds, hroom, ⟨bytes, htake, hp.trans hpours⟩, hall⟩

theorem steps_more (fuel : Nat) :
    ∀ (r : Running) (c : Call) (k : Intake) (w : ByteArray) (kEnd : Intake) (out : ByteArray), r.Holds k w → k.pos < k.target →
      c.directive = .more → c.pos ≤ c.input.size →
      k.take (slice c.input c.pos c.input.size).data.toList = .ok (kEnd, out) →
      c.input.size - c.pos + (if r.flushing then 2 else 1) ≤ fuel →
      ∃ r' c' n k' w', r.steps c fuel = { running := r', call := c', stop := true } ∧ Taken r c k w r' c' n k' w' := by
  induction fuel with
  | zero =>
    grind
  | succ fuel ih =>
    have hflushing {r : Running} {c : Call} {k : Intake} {w : ByteArray} {kEnd : Intake} {out : ByteArray} (hh : r.Holds k w)
        (hfl : r.flushing = true) (hroom : k.pos < k.target) (hd : c.directive = .more) (hp : c.pos ≤ c.input.size)
        (htake : k.take (slice c.input c.pos c.input.size).data.toList = .ok (kEnd, out)) (hf : c.input.size - c.pos + 2 ≤ fuel + 1) :
        ∃ r' c' n k' w', r.steps c (fuel + 1) = { running := r', call := c', stop := true } ∧ Taken r c k w r' c' n k' w' := by
      obtain ⟨r', c', w', hpours, hpos, hh', ⟨hne, hstep⟩ | ⟨rfl, hfl', hstep⟩⟩ := hh.steps_flushing hfl c fuel
      · refine ⟨r', c', 0, k, w', hstep, Nat.zero_le _, hpos, hh', hroom, ⟨.empty, ?_, ?_⟩, fun h => absurd h hne⟩
        · rw [add_zero, slice_self]
          rfl
        · rwa [append_empty]
      · obtain ⟨r₂, c₂, n, k', w₂, hsteps, ht⟩ := ih r' c' k .empty kEnd out hh' hroom
          (hpours.directive.trans hd) (by rw [hpours.input, hpos]; exact hp) (by rw [hpours.input, hpos]; exact htake)
          (by rw [hpours.input, hpos, hfl']; simp only [Bool.false_eq_true, if_false]; omega)
        exact ⟨r₂, c₂, n, k', w₂, hstep.trans hsteps, ht.after hpours hpos⟩
    intro r c k w kEnd out hh hroom hd hp htake hf
    cases hfl : r.flushing with
    | true =>
      grind
    | false =>
      obtain rfl := hh.calm hfl
      rw [hfl, if_neg Bool.false_ne_true] at hf
      rcases stepLoad_more hh hd hp hroom with ⟨hlt, r', hstep, hh'⟩ | ⟨n, hn0, hn, hfull, hwrite⟩
      · have hlen : (slice c.input c.pos c.input.size).data.toList.length = c.input.size - c.pos := by
          rw [length_toList, size_slice_of_le le_rfl]
        have hall : c.pos + (c.input.size - c.pos) = c.input.size := by omega
        refine ⟨r', { c with pos := c.input.size }, c.input.size - c.pos, _, .empty, steps_of_stop _ ((step_loading hfl).trans hstep) rfl,
          le_rfl, hall.symm, hh', ?_, ⟨.empty, ?_, ?_⟩, fun _ => rfl⟩
        · rw [Intake.pos_load, size_slice_of_le le_rfl]
          exact hlt
        · grind [Intake.take_of_lt, data_toList_toByteArray]
        · exact .nothing c _
      · obtain ⟨k', out₁, out₂, htaken, h2, -⟩ := take_slice hn htake
        have hlen : (slice c.input c.pos (c.pos + n)).data.toList.length = n := by
          rw [length_toList, size_slice_of_le (by omega)]
          omega
        have h1 := htaken
        rw [Intake.take_of_eq (fun h0 => by rw [h0] at hlen; simp at hlen; omega) (by rw [hlen]; exact hfull),
          data_toList_toByteArray] at h1
        obtain ⟨r₁, hstep, hh₁, hfl₁⟩ := hwrite h1
        obtain ⟨r₂, c₂, m, k₂, w₂, hsteps, hle, hpos, hholds, hroom₂, ⟨bytes, hbytes, hpours⟩, hall⟩ :=
          hflushing (c := { c with pos := c.pos + n }) hh₁ hfl₁ (Intake.room_of_write h1).1 hd (by dsimp only; omega) h2 (by dsimp only; omega)
        dsimp only at hle hpos hbytes hall
        refine ⟨r₂, c₂, n + m, k₂, w₂, (steps_of_write _ hfl hstep hfl₁).trans hsteps, by omega, by omega, hholds, hroom₂,
          ⟨out₁ ++ bytes, ?_, ?_⟩, fun h => ?_⟩
        · rw [← slice_append_slice (show c.pos ≤ c.pos + n by omega) (show c.pos + n ≤ c.pos + (n + m) by omega),
            ByteArray.data_append, Array.toList_append, Intake.take_append, htaken]
          dsimp only [bind, Except.bind]
          rw [← add_assoc, hbytes]
          rfl
        · exact ⟨hpours.out, hpours.room, hpours.full, hpours.input, hpours.directive⟩
        · omega

/-! ### Flushing and finishing -/

theorem stepLoad_idle (hp : c.pos = c.input.size)
    (hf : ¬ (decide (c.directive = .finish) && decide (bound (c.input.size - c.pos) ≤ c.free) && decide (r.pos = 0)) = true)
    (hm : c.directive ≠ .more) :
    r.stepLoad c = if c.directive = .flush ∧ r.pending.size = 0 then { running := r, call := c, stop := true } else r.stepWrite c := by
  have hn : min (c.input.size - c.pos) (r.target - r.pos) = 0 := by omega
  unfold stepLoad
  dsimp only
  rw [if_neg hf, hn, copySlice_end, add_zero, slice_self, append_empty]
  rw [if_neg (by simp_all)]
  simp

/-- A flush gives out what waits, and then writes the block at hand. -/
theorem steps_flush (fuel : Nat) (hh : r.Holds k w) (hd : c.directive = .flush) (hp : c.pos = c.input.size)
    (hroom : k.pos < k.target) (hflush : k.flush = .ok (k', bytes)) :
    ∃ r' c' k₁ w', r.steps c (fuel + 3) = { running := r', call := c', stop := true } ∧ r'.Holds k₁ w' ∧ k₁.pos < k₁.target ∧
      c'.pos = c.pos ∧ (k₁ = k ∧ w'.size ≠ 0 ∧ c.Pours w c' w' ∨ k₁ = k' ∧ c.Pours (w ++ bytes) c' w') := by
  have hidle {r : Running} {c : Call} (hd : c.directive = .flush) (hp : c.pos = c.input.size) :=
    stepLoad_idle (r := r) hp (by simp [hd]) (by rw [hd]; decide)
  have hdone {r : Running} {c : Call} {k : Intake} (fuel : Nat) (hh : r.Holds k .empty) (hfl : r.flushing = false)
      (hd : c.directive = .flush) (hp : c.pos = c.input.size) (h0 : k.pending.size = 0) :
      r.steps c (fuel + 1) = { running := r, call := c, stop := true } := by
    have hload := hidle (r := r) hd hp
    rw [if_pos ⟨hd, by rw [← h0, ← hh.intake]; rfl⟩] at hload
    exact steps_of_stop _ ((step_loading hfl).trans hload) rfl
  -- once nothing waits, the block at hand is written
  have hcalm {r : Running} {c : Call} (fuel : Nat) (hh : r.Holds k .empty) (hfl : r.flushing = false)
      (hd : c.directive = .flush) (hp : c.pos = c.input.size) :
      ∃ r' c' w', r.steps c (fuel + 2) = { running := r', call := c', stop := true } ∧ r'.Holds k' w' ∧ k'.pos < k'.target ∧
        c'.pos = c.pos ∧ c.Pours bytes c' w' := by
    unfold Intake.flush at hflush
    by_cases h0 : k.pending.size = 0
    · rw [if_pos h0] at hflush
      cases hflush
      exact ⟨r, c, .empty, hdone _ hh hfl hd hp h0, hh, hroom, rfl, .nothing c c.pos⟩
    · rw [if_neg h0] at hflush
      have hload := hidle (r := r) hd hp
      rw [if_neg fun h => h0 (by rw [← h.2, ← hh.intake]; rfl)] at hload
      obtain ⟨r₁, hstep, hh₁, hfl₁⟩ := stepWrite_spec (c := c) hh.intake (fun h => by rw [hd] at h; cases h.1) hflush
      obtain ⟨hroom', hpend⟩ := Intake.room_of_write hflush
      rw [steps_of_write _ hfl (hload.trans hstep) hfl₁]
      obtain ⟨r', c', w', hpours, hpos, hh', ⟨hne, hstep⟩ | ⟨rfl, hfl', hstep⟩⟩ := hh₁.steps_flushing hfl₁ c (fuel + 1)
      · grind
      · exact ⟨r', c', .empty, hstep.trans (hdone _ hh' hfl' (hpours.directive.trans hd) (by rw [hpours.input, hpos]; exact hp)
          (by rw [hpend]; rfl)), hh', hroom', hpos, hpours⟩
  cases hfl : r.flushing with
  | false =>
    obtain rfl := hh.calm hfl
    obtain ⟨r', c', w', h1, h2, h3, h4, h5⟩ := hcalm (fuel + 1) hh hfl hd hp
    exact ⟨r', c', k', w', h1, h2, h3, h4, .inr ⟨rfl, by rwa [empty_append]⟩⟩
  | true =>
    obtain ⟨r₁, c₁, w₁, hpours, hpos, hh₁, ⟨hne, hstep⟩ | ⟨rfl, hfl', hstep⟩⟩ := hh.steps_flushing hfl c (fuel + 2)
    · grind
    · obtain ⟨r', c', w', h1, h2, h3, h4, h5⟩ := hcalm fuel hh₁ hfl' (hpours.directive.trans hd) (by rw [hpours.input, hpos]; exact hp)
      exact ⟨r', c', k', w', hstep.trans h1, h2, h3, h4.trans hpos, .inr ⟨rfl, hpours.trans h5⟩⟩

theorem finish_place (w : Writer) (p p' : Int) (hb : b.size = 0) (hb' : b'.size = 0) : w.finish p b = w.finish p' b' := by
  simp_all [Writer.finish, Writer.add]

/-- A call that ends the frame gives out what waits, and then the rest of the frame. -/
theorem steps_finish (fuel : Nat) (hh : r.Holds k w) (hd : c.directive = .finish) (hp : c.pos = c.input.size)
    (hj : k.Undivided) (hfin : k.finish = .ok bytes)
    (hsize : k.pending.size = 0 → bytes.size ≤ bound 0) :
    ∃ r' c' w' complete, r.steps c (fuel + 2) = { running := r', call := c', complete, stop := true } ∧ c'.pos = c.pos ∧
      r'.waiting = w' ∧
      (complete = false ∧ w'.size ≠ 0 ∧ r'.Holds k w' ∧ c.Pours w c' w' ∨
        c.Pours (w ++ bytes) c' w' ∧ (complete = false ∧ w'.size ≠ 0 ∧ r'.Ends w' ∨ complete = true ∧ w' = .empty)) := by
  -- once nothing waits, the frame is ended
  have hcalm {r : Running} {c : Call} (fuel : Nat) (hh : r.Holds k .empty) (hfl : r.flushing = false)
      (hd : c.directive = .finish) (hp : c.pos = c.input.size) :
      ∃ r' c' w' complete, r.steps c (fuel + 1) = { running := r', call := c', complete, stop := true } ∧ c'.pos = c.pos ∧
        r'.waiting = w' ∧ c.Pours bytes c' w' ∧
        (complete = false ∧ w'.size ≠ 0 ∧ r'.Ends w' ∨ complete = true ∧ w' = .empty) := by
    have hw : r.writer = k.writer := by rw [← hh.intake]; rfl
    have hpend : r.pending = k.pending := by rw [← hh.intake]; rfl
    by_cases hdirect : (decide (c.directive = .finish) && decide (bound (c.input.size - c.pos) ≤ c.free) && decide (r.pos = 0)) = true
    · have h3 : c.directive = .finish ∧ bound 0 ≤ c.free ∧ r.pos = 0 := by
        have hrest : c.input.size - c.pos = 0 := by omega
        rw [Bool.and_eq_true, Bool.and_eq_true, decide_eq_true_eq, decide_eq_true_eq, decide_eq_true_eq, hrest] at hdirect
        exact ⟨hdirect.1.1, hdirect.1.2, hdirect.2⟩
      have h0 : r.start + r.pending.size = 0 := h3.2.2
      have hk0 : k.pending.size = 0 := by rw [← hpend]; omega
      have hfinish : (r.writer.finish directPlace (slice c.input c.pos c.input.size)).2 = .ok bytes := by
        rw [finish_place r.writer directPlace k.start (by rw [size_slice]; omega) hk0, hw]
        exact hfin
      generalize hr' : ({ r with writer := (r.writer.finish directPlace (slice c.input c.pos c.input.size)).1, ended := true } :
        Running) = r'
      generalize hc' : ({ c with pos := c.input.size, out := c.out ++ bytes, free := c.free - bytes.size } : Call) = c'
      have hstep : r.stepLoad c = { running := r', call := c', complete := true, stop := true } := by
        rw [← hr', ← hc']
        unfold stepLoad
        dsimp only
        rw [if_pos hdirect, hw, hj.finishAtOnce hk0]
        rw [hw] at hfinish
        generalize k.writer.finish directPlace (slice c.input c.pos c.input.size) = p at hfinish ⊢
        obtain ⟨writer, result⟩ := p
        subst hfinish
        rfl
      refine ⟨r', c', .empty, true, steps_of_stop _ ((step_loading hfl).trans hstep) rfl, ?_, ?_, ?_, .inr ⟨rfl, rfl⟩⟩
      · rw [← hc', hp]
      · rw [← hr']
        exact hh.waiting
      rw [← hc']
      refine ⟨append_empty, ?_, fun h => absurd rfl h, rfl, rfl⟩
      grind
    · have hload := stepLoad_idle (r := r) hp hdirect (by rw [hd]; decide)
      rw [if_neg (by rw [hd]; rintro ⟨h, -⟩; cases h)] at hload
      obtain ⟨r₁, hstep, he⟩ := stepFinish_spec (c := c) hh.intake ⟨hd, hp⟩ hfin
      rw [steps_of_write _ hfl (hload.trans hstep) he.flushing]
      obtain ⟨r', c', w', complete, hsteps, hpours, hpos, hw', hcase⟩ := he.steps c fuel
      grind
  cases hfl : r.flushing with
  | false =>
    obtain rfl := hh.calm hfl
    obtain ⟨r', c', w', complete, h1, h2, h3, h4, h5⟩ := hcalm (fuel + 1) hh hfl hd hp
    exact ⟨r', c', w', complete, h1, h2, h3, .inr ⟨h4, h5⟩⟩
  | true =>
    obtain ⟨r₁, c₁, w₁, hpours, hpos, hh₁, ⟨hne, hstep⟩ | ⟨rfl, hfl', hstep⟩⟩ := hh.steps_flushing hfl c (fuel + 1)
    · exact ⟨r₁, c₁, w₁, false, hstep, hpos, hh₁.waiting, .inl ⟨rfl, hne, hh₁, hpours⟩⟩
    · obtain ⟨r', c', w', complete, h1, h2, h3, h4, h5⟩ := hcalm fuel hh₁ hfl' (hpours.directive.trans hd) (by rw [hpours.input, hpos]; exact hp)
      exact ⟨r', c', w', complete, hstep.trans h1, h2.trans hpos, h3, .inr ⟨hpours.trans h4, h5⟩⟩

end Running

namespace Context

variable {x : Context} {s : Settings} {d : DictionaryChoice} {k k' : Intake} {w R : ByteArray}

/-! ### Calls of a compressor -/

/-- The compressor works with the settings `s` and, once it is prepared, the dictionary `d`. -/
structure Has (x : Context) (s : Settings) (d : DictionaryChoice) : Prop where
  settings : x.settings = s
  dictionary : prepare s x.dictionary = .ok d

theorem prepare_prepared (h : prepare s c = .ok d) : prepare s d = .ok d := by
  cases c with
  | loaded b type =>
    grind [prepare]
  | none | own d | prepared d =>
    cases h
    rfl

theorem prepare_of_run (h : (x.run input pos free directive).2.result = .ok n) :
    ∃ d, prepare x.settings x.dictionary = .ok d := by
  unfold run at h
  grind

/-- The intake of a frame that has not taken anything. -/
def firstIntake (s : Settings) (d : DictionaryChoice) (pledged : Option Nat) : Intake := (start s d pledged).intake

theorem room_start (w : Writer) : (Running.start_ w).intake.pos < (Running.start_ w).intake.target := by
  have := Writer.blockSize_pos w.plan
  show 0 + ByteArray.empty.size < w.plan.blockSize + (if w.plan.pledged = some w.plan.blockSize then 1 else 0)
  rw [size_empty]
  omega

theorem start_holds (s : Settings) (d : DictionaryChoice) (pledged : Option Nat) :
    (start s d pledged).Holds (firstIntake s d pledged) .empty ∧
      (firstIntake s d pledged).pos < (firstIntake s d pledged).target :=
  ⟨⟨rfl, slice_self _ _, fun _ => rfl, rfl⟩, room_start _⟩

/-- No frame is under way, and the next one is promised the size `p`. -/
structure Idle (x : Context) (p : Option Nat) : Prop where
  running : x.running = none
  pledged : x.pledged = p

/-- A frame is under way: its intake is `k`, and the output `w` waits. -/
def Open (x : Context) (k : Intake) (w : ByteArray) : Prop := ∃ r, x.running = some r ∧ r.Holds k w ∧ k.pos < k.target

/-- A frame is under way, or will be as soon as there is input. -/
def At (x : Context) (s : Settings) (d : DictionaryChoice) (k : Intake) (w : ByteArray) : Prop :=
  x.Open k w ∨ ∃ p, x.Idle p ∧ k = firstIntake s d p ∧ w = .empty

/-- A frame has ended, and the output `w` waits. -/
def Ending (x : Context) (w : ByteArray) : Prop := ∃ r, x.running = some r ∧ r.Ends w

/-- If `xs` is fed, the intake becomes `k`, and the output is `R`. -/
def Takes (x : Context) (s : Settings) (d : DictionaryChoice) (xs : List UInt8) (k : Intake) (R : ByteArray) : Prop :=
  ∃ k₀ w bytes, x.At s d k₀ w ∧ k₀.take xs = .ok (k, bytes) ∧ R = w ++ bytes

/-- If all is flushed, the intake becomes `k`, and the output is `R`. -/
def Flushes (x : Context) (s : Settings) (d : DictionaryChoice) (k : Intake) (R : ByteArray) : Prop :=
  ∃ k₀ w bytes, x.At s d k₀ w ∧ k₀.flush = .ok (k, bytes) ∧ R = w ++ bytes

/-- A frame is under way, or one without content will be. -/
def AtEnd (x : Context) (s : Settings) (d : DictionaryChoice) (k : Intake) (w : ByteArray) : Prop :=
  x.Open k w ∨ x.running = none ∧ k = firstIntake s d (some 0) ∧ w = .empty

/-- If the frame is ended, the output is `R`. -/
def Finishes (x : Context) (s : Settings) (d : DictionaryChoice) (R : ByteArray) : Prop :=
  x.Ending R ∨ ∃ k w bytes, x.AtEnd s d k w ∧ k.finish = .ok bytes ∧ k.Undivided ∧
    bytes.size ≤ mostHeader + 4 * k.pending.size + 7 ∧ R = w ++ bytes

/-- The frame under way, or else one that is promised the size `p`. -/
def frame (x : Context) (s : Settings) (d : DictionaryChoice) (p : Option Nat) : Running := x.running.getD (start s d p)

theorem run_of_steps
    (hx : x.Has s d) (hp : (if directive = .finish then some (input.size - pos) else x.pledged) = p)
    (hs : (x.frame s d p).steps { input, pos, free, directive } (2 * (input.size - pos) + 8) =
      { running := r', call := c', complete, stop := true }) :
    ∃ x', x.run input pos free directive = (x', { pos := c'.pos, out := c'.out, result := .ok r'.waiting.size }) ∧ x'.Has s d ∧
      (complete = true → x'.Idle none) ∧ (complete = false → x'.running = some r') := by
  have hw : r'.waiting.size = r'.out.size - r'.given := by rw [Running.waiting, size_slice_of_le le_rfl]
  -- which frame it is, is settled by the directive and by whether one is under way
  have hrun : ∃ p', x.run input pos free directive =
      (if complete = true then ⟨s, d, none, none, r'.progress⟩ else ⟨s, d, p', some r', r'.progress⟩,
        { pos := c'.pos, out := c'.out, result := .ok r'.waiting.size }) := by
    obtain ⟨settings, dictionary, pledged, running, progress⟩ := x
    obtain ⟨rfl, hdict⟩ := hx
    unfold frame at hs
    unfold run
    dsimp only at hs ⊢
    rw [hdict, hw]
    rcases running with _ | r₀
    · have hp' : (if (none : Option Running).isNone && directive == .finish then some (input.size - pos) else pledged) = p := by
        rw [← hp]
        cases directive <;> rfl
      rw [Option.getD_none] at hs
      rw [hp']
      dsimp only
      rw [hs]
      exact ⟨_, rfl⟩
    · rw [Option.getD_some] at hs
      dsimp only
      rw [hs]
      exact ⟨_, rfl⟩
  obtain ⟨p', hrun⟩ := hrun
  rw [hrun]
  cases complete with
  | true => exact ⟨_, rfl, ⟨rfl, prepare_prepared hx.dictionary⟩, fun _ => ⟨rfl, rfl⟩, (by intro h; cases h)⟩
  | false => exact ⟨_, rfl, ⟨rfl, prepare_prepared hx.dictionary⟩, (by intro h; cases h), fun _ => rfl⟩

theorem At.frame_holds (h : x.At s d k w) : (x.frame s d x.pledged).Holds k w ∧ k.pos < k.target := by
  unfold frame
  rcases h with ⟨r, hr, hh, hroom⟩ | ⟨p, hi, rfl, rfl⟩
  · rw [hr]
    exact ⟨hh, hroom⟩
  · rw [hi.running, hi.pledged]
    exact start_holds s d p

theorem At.open_of_running (h : x.At s d k w) (hrun : x.running.isSome) : x.Open k w := by
  rcases h with h | ⟨p, hi, -, -⟩
  · exact h
  grind [Idle.running]

theorem AtEnd.frame_holds (h : x.AtEnd s d k w) : (x.frame s d (some 0)).Holds k w ∧ k.pos < k.target := by
  unfold frame
  rcases h with ⟨r, hr, hh, hroom⟩ | ⟨hr, rfl, rfl⟩
  · rw [hr]
    exact ⟨hh, hroom⟩
  simp_all [start_holds]

theorem run_more (free : Nat) (hx : x.Has s d) (hp : pos ≤ input.size)
    (hat : x.At s d k w) (htake : k.take (slice input pos input.size).data.toList = .ok (k', bytes)) :
    ∃ x' o n k₁ w₁ bytes₁, x.run input pos free .more = (x', o) ∧ o.result = .ok n ∧ x'.Has s d ∧ x'.Open k₁ w₁ ∧
      k.take (slice input pos o.pos).data.toList = .ok (k₁, bytes₁) ∧ o.out ++ w₁ = w ++ bytes₁ ∧
      pos ≤ o.pos ∧ o.pos ≤ input.size ∧ o.out.size ≤ free ∧ (o.pos < input.size → o.out.size = free) := by
  obtain ⟨hh, hroom⟩ := hat.frame_holds
  obtain ⟨r', c', n, k₁, w₁, hsteps, ht⟩ := Running.steps_more (2 * (input.size - pos) + 8) (x.frame s d x.pledged)
    ⟨input, pos, free, .more, .empty⟩ k w _ _ hh hroom rfl hp htake (by dsimp only; split <;> omega)
  obtain ⟨x', hrun, hx', -, hrunning⟩ := run_of_steps hx (if_neg (by decide)) hsteps
  obtain ⟨bytes₁, htake₁, hpours⟩ := ht.pours
  obtain ⟨hout, hle', hfull⟩ := hpours.given
  have hle := ht.le
  have hpos := ht.pos
  dsimp only at hle hpos htake₁
  refine ⟨x', _, _, k₁, w₁, bytes₁, hrun, rfl, hx', ⟨r', hrunning rfl, ht.holds, ht.room⟩, ?_, hout, ?_, ?_, hle', fun hlt => hfull fun h0 => ?_⟩
  · simp_all
  · dsimp only
    omega
  · dsimp only
    omega
  · have hall := ht.all h0
    dsimp only at hlt hall
    omega

/-- The rest of the input is still to be taken then. -/
theorem Takes.more (free : Nat) (hx : x.Has s d) (hp : pos ≤ input.size)
    (h : x.Takes s d (slice input pos input.size).data.toList k R) :
    ∃ x' o R' n, x.run input pos free .more = (x', o) ∧ o.result = .ok n ∧ x'.Has s d ∧
      x'.Takes s d (slice input o.pos input.size).data.toList k R' ∧ o.out ++ R' = R ∧ pos ≤ o.pos ∧ o.pos ≤ input.size ∧
      o.out.size ≤ free ∧ (o.pos < input.size → o.out.size = free) ∧ x'.running.isSome := by
  obtain ⟨k₀, w, bytes, hat, htake, rfl⟩ := h
  obtain ⟨x', o, n, k₁, w₁, bytes₁, hrun, hres, hx', hopen, htake₁, hout, h1, h2, hle, hfull⟩ := run_more free hx hp hat htake
  obtain ⟨k₂, out₁, out₂, h3, h4, rfl⟩ := Running.take_slice (n := o.pos - pos) (by omega) htake
  have hpos : pos + (o.pos - pos) = o.pos := by omega
  rw [hpos] at h3 h4
  cases htake₁.symm.trans h3
  obtain ⟨r, hr, -⟩ := id hopen
  refine ⟨x', o, w₁ ++ out₂, n, hrun, hres, hx', ⟨k₁, w₁, out₂, .inl hopen, h4, rfl⟩, ?_, h1, h2, hle, hfull, ?_⟩
  · rw [← append_assoc, hout, append_assoc]
  · rw [hr]
    rfl

theorem run_flush (free : Nat) (hx : x.Has s d) (h : x.Flushes s d k R) :
    ∃ x' o R' n, x.run .empty 0 free .flush = (x', o) ∧ x'.Has s d ∧ o.out ++ R' = R ∧ o.out.size ≤ free ∧ o.result = .ok n ∧
      (n = 0 ∧ R' = .empty ∧ x'.Open k .empty ∨ n ≠ 0 ∧ o.out.size = free ∧ x'.Flushes s d k R') := by
  obtain ⟨k₀, w, bytes, hat, hflush, rfl⟩ := h
  obtain ⟨hh, hroom⟩ := hat.frame_holds
  obtain ⟨r', c', k₁, w', hsteps, hh', hroom', hpos, hcase⟩ := Running.steps_flush 5 (c := ⟨.empty, 0, free, .flush, .empty⟩)
    hh rfl rfl hroom hflush
  obtain ⟨x', hrun, hx', -, hrunning⟩ := run_of_steps hx (if_neg (by decide)) hsteps
  have hopen : x'.Open k₁ w' := ⟨r', hrunning rfl, hh', hroom'⟩
  have hwait : r'.waiting.size = w'.size := by rw [hh'.waiting]
  rcases hcase with ⟨rfl, hne, hpours⟩ | ⟨rfl, hpours⟩ <;> obtain ⟨hout, hle, hfull⟩ := hpours.given
  · refine ⟨x', _, w' ++ bytes, _, hrun, hx', ?_, hle, rfl, .inr ⟨hwait.symm ▸ hne, hfull hne, k₁, w', bytes, .inl hopen, hflush, rfl⟩⟩
    rw [← append_assoc, hout]
  · refine ⟨x', _, w', _, hrun, hx', hout, hle, rfl, ?_⟩
    rw [hwait]
    by_cases h0 : w'.size = 0
    · simp_all
    · exact .inr ⟨h0, hfull h0, k₁, w', .empty, .inl hopen, Intake.flush_of_flush hflush, append_empty.symm⟩

theorem run_error (h : x.run input pos free directive = (x', o))
    (he : o.result = .error e) : o.out = .empty := by
  unfold run at h
  grind

theorem run_finish (free : Nat) (hx : x.Has s d) (h : x.Finishes s d R) :
    ∃ x' o R' n, x.run .empty 0 free .finish = (x', o) ∧ x'.Has s d ∧ o.out ++ R' = R ∧ o.out.size ≤ free ∧ o.result = .ok n ∧ o.pos = 0 ∧
      (n = 0 ∧ R' = .empty ∧ x'.Idle none ∨ n ≠ 0 ∧ o.out.size = free ∧ x'.Finishes s d R') := by
  -- at the end of the frame, a call gives the last of it, or fills its room
  have hlast {r' : Running} {c' : Call} {v w' : ByteArray} {complete : Bool} {x' : Context} (hpours : Call.Pours ⟨.empty, 0, free, .finish, .empty⟩ v c' w')
      (hwait : r'.waiting = w') (hcase : complete = false ∧ w'.size ≠ 0 ∧ r'.Ends w' ∨ complete = true ∧ w' = .empty)
      (hidle : complete = true → x'.Idle none) (hrunning : complete = false → x'.running = some r') :
      c'.out ++ w' = v ∧ c'.out.size ≤ free ∧ (r'.waiting.size = 0 ∧ w' = .empty ∧ x'.Idle none ∨
        r'.waiting.size ≠ 0 ∧ c'.out.size = free ∧ x'.Finishes s d w') := by
    obtain ⟨h1, h2, h3⟩ := hpours.given
    refine ⟨h1, h2, ?_⟩
    rw [hwait]
    rcases hcase with ⟨hc, hne, he⟩ | ⟨hc, rfl⟩
    · exact .inr ⟨hne, h3 hne, .inl ⟨r', hrunning hc, he⟩⟩
    · exact .inl ⟨rfl, rfl, hidle hc⟩
  rcases h with ⟨r, hr, he⟩ | ⟨k, w, bytes, hat, hfin, hj, hsize, rfl⟩
  · obtain ⟨r', c', w', complete, hsteps, hpours, hpos, hwait, hcase⟩ := he.steps ⟨.empty, 0, free, .finish, .empty⟩ 7
    have hframe : x.frame s d (some (ByteArray.empty.size - 0)) = r := by
      rw [frame, hr]
      rfl
    rw [← hframe] at hsteps
    obtain ⟨x', hrun, hx', hidle, hrunning⟩ := run_of_steps hx (if_pos rfl) hsteps
    obtain ⟨h1, h2, h3⟩ := hlast hpours hwait hcase hidle hrunning
    exact ⟨x', _, w', _, hrun, hx', h1, h2, rfl, hpos, h3⟩
  · obtain ⟨hh, hroom⟩ := hat.frame_holds
    have hsmall (h0 : k.pending.size = 0) : bytes.size ≤ bound 0 := by
      rw [mostHeader, h0] at hsize
      rw [show bound 0 = 64 by decide]
      omega
    obtain ⟨r', c', w', complete, hsteps, hpos, hwait, hcase⟩ :=
      Running.steps_finish (c := ⟨.empty, 0, free, .finish, .empty⟩) 6 hh rfl rfl hj hfin hsmall
    have hp : (if Directive.finish = .finish then some (ByteArray.empty.size - 0) else x.pledged) = some 0 := if_pos rfl
    obtain ⟨x', hrun, hx', hidle, hrunning⟩ := run_of_steps hx hp hsteps
    rcases hcase with ⟨rfl, hne, hh', hpours⟩ | ⟨hpours, hcase⟩
    · obtain ⟨h1, h2, h3⟩ := hpours.given
      refine ⟨x', _, w' ++ bytes, _, hrun, hx', ?_, h2, rfl, hpos, .inr ⟨hwait.symm ▸ hne, h3 hne, .inr ⟨k, w', bytes, ?_, hfin, hj, hsize, rfl⟩⟩⟩
      · grind [append_assoc]
      · exact .inl ⟨r', hrunning rfl, hh', hroom⟩
    · obtain ⟨h1, h2, h3⟩ := hlast hpours hwait hcase hidle hrunning
      exact ⟨x', _, w', _, hrun, hx', h1, h2, rfl, hpos, h3⟩

end Context

end ZstCodec.Compress
