import ZstCodec.Proofs.Decompress.AtOnce

/-! # Decoders in use

Whatever bytes a decoder is given, it keeps its settings, and its room stays within what the largest window needs. Once
it is reset, it is as good as a new one (`Used.free`). -/

namespace ZstCodec.Decompress.Stream

variable {s s' s'' : Stream}

/-! ### Inside a frame -/

/-- What no part of a frame changes. -/
def settled (s : Stream) : ((Frame.Format × Nat × Option Dictionary) × Option Dictionary × Nat) × Frame.Header × Bool × Nat × Nat × Nat × ByteArray :=
  (((s.format, s.maxWindow, s.own), s.dict, s.outSize), s.frame, s.hostage, s.contentStart, s.outStart, s.outEnd, s.loaded)

theorem settled_checkRound (s : Stream) (capacity : Nat) : (s.checkRound capacity).settled = s.settled := by
  unfold checkRound
  split <;> rfl

theorem settled_afterLastBlock (s : Stream) : s.afterLastBlock.settled = s.settled := by
  unfold afterLastBlock
  split <;> rfl

theorem settled_takeBlockHeader (s : Stream) (src : ByteArray) : (s.takeBlockHeader src).1.settled = s.settled := by
  unfold takeBlockHeader
  split
  · rfl
  · split
    · rfl
    · split
      · rfl
      · split
        · exact settled_afterLastBlock _
        · rfl

theorem settled_runBlock (s : Stream) (capacity : Nat) (src : ByteArray) : (s.runBlock capacity src).1.settled = s.settled := by
  unfold runBlock
  split <;> dsimp only <;> split <;> rfl

theorem settled_takeBlock (s : Stream) (capacity : Nat) (src : ByteArray) : (s.takeBlock capacity src).1.settled = s.settled := by
  have h := settled_runBlock s capacity src
  unfold takeBlock
  rcases hrun : s.runBlock capacity src with ⟨s', e | n⟩ <;> rw [hrun] at h
  · exact h
  · dsimp only at h ⊢
    split
    · exact h
    · split
      · exact h
      · split
        · split
          · exact h
          · exact (settled_afterLastBlock _).trans h
        · exact h

theorem settled_takePart (s : Stream) (capacity : Nat) (src : ByteArray) : (s.takePart capacity src).1.settled = s.settled := by
  have h := settled_checkRound s capacity
  unfold takePart
  dsimp only
  split
  · exact h
  · exact (settled_takeBlockHeader _ _).trans h
  · exact (settled_takeBlock _ _ _).trans h
  · exact (settled_takeBlock _ _ _).trans h
  · split <;> exact h
  · exact h

/-- What no call changes inside a frame. -/
def frozen (s : Stream) : (Frame.Format × Nat × Option Dictionary) × Option Dictionary × Nat :=
  ((s.format, s.maxWindow, s.own), s.dict, s.outSize)

theorem frozen_advance (s : Stream) (src : ByteArray) : (s.advance src).1.frozen = s.frozen := by
  have h := congrArg Prod.fst (settled_takePart s (if s.part = .skipped then 0 else s.outSize - s.outStart) src)
  unfold advance
  dsimp only
  split
  · rename_i heq
    rw [heq] at h
    exact h
  · rename_i heq
    rw [heq] at h
    split <;> exact h

/-! ### A step -/

/-- Room for the content of a frame with the given window, at most. -/
def mostRoom (window : Nat) : Nat := window + 2 * Block.maxSize + 2 * Literals.slack

/-- The decoder has the settings that it had, and has made room for no more than these allow. -/
structure Keeps (s s' : Stream) : Prop where
  settings : (s'.format, s'.maxWindow, s'.own) = (s.format, s.maxWindow, s.own)
  outSize : s'.outSize ≤ max s.outSize (mostRoom s.maxWindow)

/-- The dictionary in place is the same, too. -/
structure Outgrows (s s' : Stream) : Prop extends Keeps s s' where
  dict : s'.dict = s.dict

theorem Keeps.trans (h : s.Keeps s') (h' : s'.Keeps s'') : s.Keeps s'' where
  settings := h'.settings.trans h.settings
  outSize := by
    have hw : s'.maxWindow = s.maxWindow := congrArg (·.2.1) h.settings
    have h1 := h.outSize
    have h2 := h'.outSize
    rw [hw] at h2
    omega

theorem Keeps.format_eq (h : s.Keeps s') : s'.format = s.format := congrArg (·.1) h.settings

theorem Outgrows.of_frozen (h : s'.frozen = s.frozen) : s.Outgrows s' where
  settings := congrArg Prod.fst h
  dict := congrArg (·.2.1) h
  outSize := le_trans (le_of_eq (congrArg (·.2.2) h)) (le_max_left _ _)

theorem Outgrows.refl (s : Stream) : s.Outgrows s := .of_frozen rfl

theorem Outgrows.trans (h : s.Outgrows s') (h' : s'.Outgrows s'') : s.Outgrows s'' where
  toKeeps := h.toKeeps.trans h'.toKeeps
  dict := h'.dict.trans h.dict

theorem makeRoom_outgrows (h : outNeeded ≤ mostRoom s.maxWindow) :
    s.Outgrows { s.makeRoom inNeeded outNeeded with stage := .read } := by
  unfold makeRoom
  split
  · exact ⟨⟨rfl, le_trans h (le_max_right _ _)⟩, rfl⟩
  · exact .of_frozen rfl

theorem neededRooms_le (h : Frame.Header) (hw : windowSize ≤ most) : (neededRooms h windowSize).2 ≤ mostRoom most := by
  grind [neededRooms, mostRoom]

theorem startFrame_outgrows (s : Stream) (opening : Frame.Opening) : s.Outgrows (s.startFrame opening).1 := by
  unfold startFrame
  cases opening
  all_goals
    dsimp only
    split
    · exact .of_frozen rfl
    split
    · exact .of_frozen rfl
    · refine Outgrows.trans ?_ (makeRoom_outgrows ?_)
      · exact .of_frozen rfl
      simp_all [neededRooms_le]

def Step.stream : Step → Stream
  | .again s _ | .done s _ | .hint s _ _ | .fail s _ _ => s

theorem atOnce?_outgrows (h : s.atOnce? c opening = some r) : s.Outgrows r.stream := by
  unfold atOnce? at h
  split at h
  · split at h
    · cases h
    · dsimp only at h
      split at h
      · cases h
      · split at h <;> cases h <;> exact .of_frozen rfl
  · cases h

theorem stepHeader_outgrows (s : Stream) (c : Call) : s.Outgrows (s.stepHeader c).stream := by
  unfold stepHeader
  split
  · exact .refl s
  · dsimp only
    split
    · split <;> exact .of_frozen rfl
    · exact .of_frozen rfl
  · split
    · grind [atOnce?_outgrows]
    · have h := startFrame_outgrows s ‹_›
      split
      all_goals
        rename_i heq
        rw [heq] at h
        exact h

theorem stepLoad_outgrows (s : Stream) (c : Call) : s.Outgrows (s.stepLoad c).stream := by
  unfold stepLoad
  dsimp only
  split
  · exact .refl s
  split
  · exact .of_frozen rfl
  · have h := frozen_advance { s with loaded := .empty } (s.loaded ++ slice c.input c.pos (c.pos + min (s.expected - s.loaded.size) (c.input.size - c.pos)))
    split
    all_goals
      rename_i heq
      rw [heq] at h
      exact .of_frozen h

theorem stepRead_outgrows (s : Stream) (c : Call) : s.Outgrows (s.stepRead c).stream := by
  unfold stepRead
  dsimp only
  split
  · exact .of_frozen rfl
  split
  · have h := frozen_advance s (slice c.input c.pos (c.pos + s.wanted (c.input.size - c.pos)))
    split
    all_goals
      rename_i heq
      rw [heq] at h
      exact .of_frozen h
  split
  · exact .refl s
  · refine Outgrows.trans ?_ (stepLoad_outgrows _ c)
    exact .of_frozen rfl

theorem stepFlush_outgrows (s : Stream) (c : Call) : s.Outgrows (s.stepFlush c).stream := by
  unfold stepFlush
  dsimp only
  split
  · exact .of_frozen rfl
  · split <;> exact .of_frozen rfl

theorem step_outgrows (s : Stream) (c : Call) : s.Outgrows (s.step c).stream := by
  unfold step
  split
  · refine Outgrows.trans ?_ (stepHeader_outgrows _ c)
    exact .of_frozen rfl
  · exact stepHeader_outgrows s c
  · exact stepRead_outgrows s c
  · exact stepLoad_outgrows s c
  · exact stepFlush_outgrows s c

/-! ### A call -/

theorem steps_outgrows (s : Stream) (c : Call) (fuel : Nat) : s.Outgrows (s.steps c fuel).stream := by
  induction fuel generalizing s c with
  | zero => exact .refl s
  | succ fuel ih =>
    have h := step_outgrows s c
    rw [steps]
    split
    · rename_i heq
      rw [heq] at h
      exact h.trans (ih _ _)
    · exact h

theorem checkProgress_outgrows (s : Stream) (c : Call) : s.Outgrows (s.checkProgress c).1 := by
  unfold checkProgress
  dsimp only
  split
  · split
    · split
      · exact .of_frozen rfl
      · split <;> exact .of_frozen rfl
    · exact .of_frozen rfl
  · exact .of_frozen rfl

theorem hintAfter_outgrows (s : Stream) (c : Call) : s.Outgrows (s.hintAfter c).1 := by
  unfold hintAfter
  split
  · split
    · split
      · split <;> exact .of_frozen rfl
      · exact .refl s
    · split <;> exact .of_frozen rfl
  · exact .refl s

/-- What a call does when it stops without a hint. -/
def close (s : Stream) (c : Call) : Stream × Outcome :=
  match s.checkProgress c with
  | (s, some e) => (s, { pos := c.pos, out := c.out, result := .error e })
  | (s, none) =>
    let (s, pos, n) := s.hintAfter c
    (s, { pos, out := c.out, result := .ok n })

theorem close_outgrows (s : Stream) (c : Call) : s.Outgrows (s.close c).1 := by
  have h := checkProgress_outgrows s c
  unfold close
  split
  all_goals
    rename_i heq
    rw [heq] at h
  · exact h
  · exact h.trans (hintAfter_outgrows _ c)

theorem run_outgrows (s : Stream) (input : ByteArray) (pos free : Nat) : s.Outgrows (s.run input pos free).1 := by
  have h := steps_outgrows s ⟨input, pos, pos, .empty, free⟩ (2 * (input.size - pos) + 16)
  unfold run
  dsimp only
  rcases hsteps : s.steps ⟨input, pos, pos, .empty, free⟩ (2 * (input.size - pos) + 16) with ⟨s', c⟩ | ⟨s', c⟩ | ⟨s', c, n⟩ | ⟨s', n, e⟩
  all_goals
    rw [hsteps] at h
  · exact h.trans (close_outgrows s' c)
  · exact h.trans (close_outgrows s' c)
  · exact h
  · exact h

/-! ### Chains -/

theorem Keeps.withDict (s : Stream) (dict : Option Dictionary) (warm : Bool) : s.Keeps { s with dict, warm } := ⟨rfl, le_max_left _ _⟩

theorem spend_keeps (s : Stream) (frame : ByteArray) : s.Keeps (s.spend frame) := by
  unfold spend
  split
  · exact .withDict s none s.warm
  · exact .withDict s none s.warm
  · exact (Outgrows.refl s).toKeeps

/-- A link whose room is known can be read, and so takes the dictionary before it. -/
theorem spend_link {frame : ByteArray} (hformat : s.format = .marked) (h : linkRoom i frame >>= checkRoom = .ok n) :
    (s.spend frame).dict = none := by
  unfold linkRoom at h
  unfold spend
  rw [hformat]
  split at h
  · cases h
  · cases h
  · rename_i heq
    rw [heq]
  · rename_i heq
    rw [heq]

/-- Links change the dictionary and nothing else; each of marked frames takes the one put before it. -/
theorem decodeLinked_keeps (s : Stream) (i : Nat) (last : ByteArray) (room other : Nat) (links : List (Except Failure ByteArray)) :
    s.Keeps (decodeLinked s i last room other links).1 ∧
      (s.format = .marked → (decodeLinked s i last room other links).1.dict = s.dict ∨ (decodeLinked s i last room other links).1.dict = none) := by
  induction links generalizing s i last room other with
  | nil => exact ⟨(Outgrows.refl s).toKeeps, fun _ => .inl rfl⟩
  | cons link links ih =>
    rcases link with e | frame
    · exact ⟨(Outgrows.refl s).toKeeps, fun _ => .inl rfl⟩
    rw [decodeLinked]
    split
    · exact ⟨(Outgrows.refl s).toKeeps, fun _ => .inl rfl⟩
    · rename_i n hroom
      dsimp only
      generalize hs : ({ s with dict := if last.size = 0 then none else some { content := last }, warm := false } : Stream) = s₁
      have hplaced : s.Keeps s₁ := hs ▸ .withDict s _ false
      have hlink : s.Keeps (decodeLink s₁ i frame (max room n) (.codec (.link i))).1 :=
        hplaced.trans (run_outgrows s₁ frame 0 (max room n)).toKeeps
      split
      all_goals
        rename_i heq
        rw [heq] at hlink
        have hspent := hlink.trans (spend_keeps _ frame)
        have hnone (hformat : s.format = .marked) := spend_link (hlink.format_eq.trans hformat) hroom
      · simp_all
      · obtain ⟨hkeeps, hdict⟩ := ih (Stream.spend _ frame) (i + 1) _ other (max room n)
        refine ⟨hspent.trans hkeeps, fun hformat => .inr ?_⟩
        rcases hdict (hspent.format_eq.trans hformat) with h | h
        · exact h.trans (hnone hformat)
        · exact h

theorem decodeChain_keeps (s : Stream) (links : List (Except Failure ByteArray)) :
    s.Keeps (decodeChain s links).1 ∧ (s.format = .marked → (decodeChain s links).1.dict = s.dict ∨ (decodeChain s links).1.dict = none) := by
  rcases links with _ | ⟨e | frame, links⟩
  · exact ⟨(Outgrows.refl s).toKeeps, fun _ => .inl rfl⟩
  · exact ⟨(Outgrows.refl s).toKeeps, fun _ => .inl rfl⟩
  rw [decodeChain]
  split
  · exact ⟨(Outgrows.refl s).toKeeps, fun _ => .inl rfl⟩
  · rename_i room _
    have h : s.Outgrows (decodeLink s 0 frame room (.codec (.link 0))).1 := run_outgrows s frame 0 room
    split
    all_goals
      rename_i heq
      rw [heq] at h
    · exact ⟨h.toKeeps, fun _ => .inl h.dict⟩
    · split
      · exact ⟨h.toKeeps, fun _ => .inl h.dict⟩
      · obtain ⟨hkeeps, hdict⟩ := decodeLinked_keeps _ 1 _ room room links
        exact ⟨h.toKeeps.trans hkeeps, fun hformat => h.dict ▸ hdict (h.format_eq.trans hformat)⟩

/-! ### Use -/

/-- The decoder `s₀` after some use: any calls, chains of frames, and resets. -/
inductive Used (s₀ : Stream) : Stream → Prop
  | fresh : Used s₀ s₀
  | call {s : Stream} (input : ByteArray) (pos free : Nat) : Used s₀ s → Used s₀ (s.run input pos free).1
  | chain {s : Stream} (links : List (Except Failure ByteArray)) : Used s₀ s → Used s₀ (decodeChain s.restart links).1
  | reset {s : Stream} : Used s₀ s → Used s₀ s.reset

variable {s₀ : Stream}

/-- A decoder as it is made: nothing is read, and the window is limited. -/
structure New (s : Stream) : Prop where
  outSize : s.outSize = 0
  dict : s.dict = s.own
  maxWindow : s.maxWindow ≤ 2 ^ 31

theorem Keeps.reset (h : s₀.Keeps s) : s₀.Keeps s.reset := ⟨h.settings, h.outSize⟩

theorem Keeps.dict_reset (h : s₀.Keeps s) (hnew : s₀.New) (hdict : s.dict = s₀.dict ∨ s.dict = none) : s.reset.dict = s₀.dict := by
  have hown : s.own = s₀.dict := (congrArg (·.2.2) h.settings).trans hnew.dict.symm
  show s.own.or s.dict = s₀.dict
  grind

/-- Of a decoder of marked frames, no use leaves a dictionary in place that is not its own. -/
theorem Used.keeps (h : Used s₀ s) (hnew : s₀.New) (hformat : s₀.format = .marked) : s₀.Keeps s ∧ (s.dict = s₀.dict ∨ s.dict = none) := by
  induction h with
  | fresh => exact ⟨(Outgrows.refl s₀).toKeeps, .inl rfl⟩
  | @call s input pos free _ ih =>
    have h := run_outgrows s input pos free
    exact ⟨ih.1.trans h.toKeeps, h.dict ▸ ih.2⟩
  | @chain s links _ ih =>
    obtain ⟨hkeeps, hdict⟩ := decodeChain_keeps s.restart links
    have hstart : s₀.Keeps s.restart := ⟨ih.1.settings, ih.1.outSize⟩
    refine ⟨hstart.trans hkeeps, ?_⟩
    rcases hdict (hstart.format_eq.trans hformat) with h | h
    · exact h ▸ ih.2
    · exact .inr h
  | reset _ ih => exact ⟨ih.1.reset, .inl (ih.1.dict_reset hnew ih.2)⟩

/-- A decoder that is reset has the settings it was made with and is free for a frame. -/
theorem Keeps.free (h : s₀.Keeps s) (hnew : s₀.New) (hdict : s.dict = s₀.dict ∨ s.dict = none) :
    s.reset.Free ∧ s.reset.fixed = s₀.fixed := by
  have hout := h.outSize
  have hw := hnew.maxWindow
  have hmost : mostRoom s₀.maxWindow < Frame.unknownSize := by
    unfold mostRoom Block.maxSize Literals.slack Frame.unknownSize
    omega
  rw [hnew.outSize] at hout
  refine ⟨⟨rfl, show s.outSize < _ by omega, show 0 + 1 < maxIdle by decide⟩, ?_⟩
  have hwindow : s.reset.maxWindow = s₀.maxWindow := congrArg (·.2.1) h.settings
  unfold fixed
  rw [h.reset.format_eq, hwindow, h.dict_reset hnew hdict]

theorem Used.free (h : Used s₀ s) (hnew : s₀.New) (hformat : s₀.format = .marked) : s.reset.Free ∧ s.reset.fixed = s₀.fixed := by
  obtain ⟨hkeeps, hdict⟩ := h.keeps hnew hformat
  exact hkeeps.free hnew hdict

end ZstCodec.Decompress.Stream
