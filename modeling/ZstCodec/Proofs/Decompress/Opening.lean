import ZstCodec.Proofs.Decompress.Steps

/-! # The start of a frame

The header of a frame may come in pieces (`Opens`). Then the frame is decoded at once, if it is there in full and its
content fits the room, or else the decoder is inside it (`Opens.step_full`). -/

namespace ZstCodec.Decompress.Stream

open Match Compress
open Block (Coding Header headerSize maxSize)

variable {s s' : Stream} {msg : Message} {frame rest out : ByteArray} {c c' : Call}

variable {z : ByteArray} {header : Frame.Header} {n : Nat}

/-! ### The start of a frame -/

/-- A decoder that can read a message: it takes the format and knows the dictionary. -/
structure Suits (s : Stream) (msg : Message) : Prop where
  format : s.format = msg.plan.format
  understood : msg.Understood (s.dict.getD .none)

/-- The decoder allows the window of a message. -/
def Admits (s : Stream) (msg : Message) : Prop := max msg.header.windowSize (2 ^ Frame.windowLogMin) ≤ s.maxWindow

/-- All of a frame is there, and room for its content, the size of which it tells. -/
def Filled (msg : Message) (frame left : ByteArray) (free : Nat) : Prop :=
  msg.ends = true ∧ (∃ z, left = frame ++ z) ∧ ∃ n, msg.header.contentSize = some n ∧ n ≤ free

theorem makeRoom_spec (s : Stream) (inNeeded outNeeded : Nat) :
    ∃ inSize outSize, s.makeRoom inNeeded outNeeded = { s with inSize, outSize } ∧ inNeeded ≤ inSize ∧ outNeeded ≤ outSize ∧
      (outSize = outNeeded ∨ outSize = s.outSize) := by
  unfold Stream.makeRoom
  split
  · simp
  grind

/-- A ring of the size that a frame needs holds all of its content, or a window and a block. -/
theorem neededRooms_spec (hf : msg.Framed frame) {outSize : Nat}
    (h : (neededRooms msg.header (max msg.header.windowSize (2 ^ Frame.windowLogMin))).2 ≤ outSize) :
    outSize < msg.header.contentSize.getD Frame.unknownSize → 2 ^ msg.layout.windowLog + msg.header.blockMax ≤ outSize := by
  intro hlt
  have hwindow := msg.plan.description.windowSize_header
  rw [hf.windowLog]
  unfold neededRooms at h
  unfold Frame.Header.blockMax at h ⊢
  dsimp only at h
  rcases hwindow with hw | ⟨n, hn, hw, hle⟩
  · rw [show msg.header.windowSize = 2 ^ msg.plan.tuning.windowLog from hw] at h ⊢
    omega
  · rw [show msg.header.contentSize = some n from hn, Option.getD_some] at h hlt
    rw [show msg.header.windowSize = n from hw] at h
    omega

theorem neededRooms_lt (hf : msg.Framed frame) :
    (neededRooms msg.header (max msg.header.windowSize (2 ^ Frame.windowLogMin))).2 < Frame.unknownSize := by
  have hlog : 2 ^ msg.plan.description.windowLog ≤ 2 ^ 31 := Nat.pow_le_pow_right (by decide) hf.fits.windowLog_le
  have hle : msg.header.windowSize ≤ 2 ^ 31 := by
    rcases msg.plan.description.windowSize_header with hw | ⟨n, -, hw, hn⟩
    · exact le_trans (le_of_eq hw) hlog
    · exact le_trans (le_of_eq hw) (le_trans hn hlog)
  unfold neededRooms Frame.unknownSize Frame.windowLogMin maxSize Literals.slack
  dsimp only
  omega

theorem startFrame_live (hf : msg.Framed frame) (hs : s.Suits msg) (hw : s.Admits msg) (hout : s.outSize < Frame.unknownSize) (hstart : s.outStart = 0)
    (hend : s.outEnd = 0) (hloaded : s.loaded = .empty) (hframe : frame = msg.plan.header ++ rest) :
    ∃ s', s.startFrame (.frame msg.header) = (s', .ok ()) ∧ s'.settings = s.settings ∧ s'.stage = .read ∧ s'.expected ≠ 0 ∧
      Live msg s' rest msg.data := by
  obtain ⟨bytes, hbytes, hblocks⟩ := hf.blocks
  obtain rfl := append_left_cancel (hframe.symm.trans hbytes)
  have hnamed : ¬ (msg.header.dictId ≠ 0 ∧ msg.header.dictId ≠ (s.begin.dict.getD .none).id) := fun h =>
    hs.understood.named.elim h.1 h.2
  have hwindow : ¬ s.begin.maxWindow < max msg.header.windowSize (2 ^ Frame.windowLogMin) := not_lt.2 hw
  obtain ⟨inSize, outSize, hroom, hin, hle, hcases⟩ := makeRoom_spec
    { s.begin with frame := msg.header, expected := headerSize, part := .blockHeader }
    (neededRooms msg.header (max msg.header.windowSize (2 ^ Frame.windowLogMin))).1
    (neededRooms msg.header (max msg.header.windowSize (2 ^ Frame.windowLogMin))).2
  have hlt : outSize < Frame.unknownSize := by
    rcases hcases with h | h
    · exact h ▸ neededRooms_lt hf
    · exact h ▸ hout
  have hlarge := neededRooms_spec hf hle
  unfold Stream.startFrame
  dsimp only
  rw [if_neg hnamed, if_neg hwindow, hroom]
  refine ⟨_, rfl, rfl, rfl, (show headerSize ≠ 0 by decide), .read rfl hloaded (hend.trans hstart.symm) (fun _ => ?_) hlt ?_⟩
  · by_cases hsmall : outSize < msg.header.contentSize.getD Frame.unknownSize
    · refine .inl ?_
      show s.outStart + msg.header.blockMax ≤ outSize
      grind
    · rcases hsome : msg.header.contentSize with _ | n
      · simp_all
      · rw [hsome] at hsmall
        exact .inr ⟨n, hsome, Nat.le_of_not_lt hsmall⟩
  · refine .header rfl rfl ⟨rfl, hin, hs.understood.ready, ?_, le_rfl, hf.origin_le, ?_⟩ hblocks
    · exact (slice_self _ _).trans (slice_self _ _).symm
    · exact ⟨rfl, fun _ => ⟨rfl, rfl, rfl, hstart⟩, fun e he => (nomatch he), .inl rfl, fun _ _ _ => hstart, hlarge⟩

/-! ### Decoding at once -/

theorem atOnce?_none (hn : header.contentSize = none) : s.atOnce? c (.frame header) = none := by
  obtain ⟨contentSize, windowSize, dictId, checksum, size⟩ := header
  obtain rfl : contentSize = none := hn
  rfl

/-- Where the header tells the size of the content, the length of the frame is looked for. -/
theorem atOnce?_some (hn : header.contentSize = some n) :
    s.atOnce? c (.frame header) =
      if c.free < n then none
      else match frameSize s.format (slice c.input c.start c.input.size) with
        | .error _ => none
        | .ok size =>
          match decodeAll s.format (slice (slice c.input c.start c.input.size) 0 size) c.free (s.dict.getD .none)
              (if s.dict.isSome && !s.warm then .ahead else .after) with
          | .error e => some (.fail { s with warm := s.dict.isSome } c.start e)
          | .ok content => some (.done { s with warm := s.dict.isSome, expected := 0, stage := .start }
              { c with pos := c.start + size, out := c.out ++ content, free := c.free - content.size }) := by
  obtain ⟨contentSize, windowSize, dictId, checksum, size⟩ := header
  obtain rfl : contentSize = some n := hn
  rfl

/-! ### Loading a header -/

/-- Bytes of the frame behind a header begun by an earlier call are not taken for a frame. -/
def Relayed (msg : Message) (frame : ByteArray) : Prop :=
  msg.header.contentSize = none ∨
    ∀ x y z n, frame = x ++ y → 0 < x.size → x.size < msg.plan.header.size → ∃ e, frameSize msg.plan.format (slice (y ++ z) 0 n) = .error e

/-- The decoder loads the header of a frame. The call at work has found `x` of it loaded. -/
structure Opens (msg : Message) (frame : ByteArray) (s : Stream) (c : Call) (rest : ByteArray) : Prop where
  stage : s.stage = .header
  suits : s.Suits msg
  window : s.Admits msg ∨ c.pos = c.start + s.headerBytes.size ∧ Filled msg frame (slice c.input c.start c.input.size) c.free
  bytes : frame = s.headerBytes ++ rest
  le : s.headerBytes.size ≤ msg.plan.header.size
  outStart : s.outStart = 0
  outEnd : s.outEnd = 0
  loaded : s.loaded = .empty
  hostage : s.hostage = false
  outSize : s.outSize < Frame.unknownSize
  pos_le : c.pos ≤ c.input.size
  meets : Meets msg.ends c.left rest
  began : ∃ x y, frame = x ++ y ∧ Meets msg.ends (slice c.input c.start c.input.size) y ∧
    (x = .empty ∧ c.pos = c.start + s.headerBytes.size ∨ Relayed msg frame ∧ 0 < x.size ∧ x.size < msg.plan.header.size)

namespace Opens

def target (msg : Message) (n : Nat) : Nat := if n < msg.plan.format.prefixSize then msg.plan.format.prefixSize else msg.plan.header.size

/-- The front of a header tells how much is needed. -/
theorem read_front (hf : msg.Framed frame) (hs : s.Suits msg) (hb : frame = b ++ rest) (hlt : b.size < msg.plan.header.size) :
    Frame.read s.format b = .ok (.more (target msg b.size)) := by
  obtain ⟨bytes, hbytes, -⟩ := hf.blocks
  obtain ⟨z, hz, -⟩ := exists_append_of_le (hb.symm.trans hbytes) (le_of_lt hlt)
  have hfront : slice msg.plan.header 0 b.size = b := by rw [hz, slice_append_of_le le_rfl, slice_all]
  have htake := Frame.Description.read_take hf.fits (k := b.size) (le_of_lt hlt)
  unfold target
  rw [← Plan.header_eq, hfront, if_pos hlt] at htake
  rw [hs.format, show msg.plan.format = msg.plan.description.format from rfl, htake]
  split <;> rfl

theorem target_le (hf : msg.Framed frame) (h : n < msg.plan.header.size) :
    n < target msg n ∧ target msg n ≤ msg.plan.header.size ∧ target msg (target msg n) = msg.plan.header.size := by
  have : msg.plan.format.prefixSize ≤ msg.plan.header.size := Frame.Description.prefixSize_le hf.fits
  unfold target
  grind

theorem more (h : Opens msg frame s c rest) (hn : c.pos + n ≤ c.input.size) (hle : s.headerBytes.size + n ≤ msg.plan.header.size)
    (hf : msg.Framed frame) :
    ∃ rest', Opens msg frame { s with headerBytes := s.headerBytes ++ slice c.input c.pos (c.pos + n) } { c with pos := c.pos + n } rest' ∧
      Goes s c rest out { s with headerBytes := s.headerBytes ++ slice c.input c.pos (c.pos + n) } { c with pos := c.pos + n } rest' out := by
  have hmoves := Call.Moves.read (c := c) (n := n) hn
  have hsize : (slice c.input c.pos (c.pos + n)).size = n := by
    rw [size_slice_of_le hn, Nat.add_sub_cancel_left]
  obtain ⟨rest', hrest, hm⟩ := h.meets.take hmoves.left fun _ => by
    have := hf.header_le
    have := congrArg ByteArray.size h.bytes
    rw [size_append] at this
    omega
  have hpos : c.pos = c.start + s.headerBytes.size →
      c.pos + n = c.start + (s.headerBytes ++ slice c.input c.pos (c.pos + n)).size := fun h => by
    grind
  refine ⟨rest', ⟨h.stage, ⟨h.suits.format, h.suits.understood⟩, h.window.imp id fun hw => ⟨hpos hw.1, hw.2⟩, ?_, ?_, h.outStart, h.outEnd,
    h.loaded, h.hostage, h.outSize, hn, hm, ?_⟩, ⟨⟨_, _, hmoves, hrest, empty_append.symm⟩, rfl, .inl, due_le hn (Nat.le_add_left _ _)⟩⟩
  · grind [append_assoc, bytes]
  · rw [size_append, hsize]
    exact hle
  · grind [began]

theorem step (hf : msg.Framed frame) (h : Opens msg frame s c rest) (hlt : s.headerBytes.size < msg.plan.header.size) :
    ∃ s' c' rest', Opens msg frame s' c' rest' ∧ Goes s c rest out s' c' rest' out ∧
      ((∃ n, s.step c = .hint s' c' n ∧ n ≠ 0 ∧ c'.pos = c'.input.size ∧ s'.headerBytes.size < msg.plan.header.size) ∨
        s.step c = .again s' c' ∧ s'.headerBytes.size = target msg s.headerBytes.size) := by
  obtain ⟨htarget, htarget', -⟩ := target_le hf hlt
  have hc := h.pos_le
  unfold Stream.step
  rw [h.stage]
  unfold Stream.stepHeader
  rw [read_front hf h.suits h.bytes hlt]
  dsimp only
  by_cases hshort : c.input.size - c.pos < target msg s.headerBytes.size - s.headerBytes.size
  · obtain ⟨rest', hopens, hgoes⟩ := h.more (n := c.input.size - c.pos) (by omega) (by omega) hf
    rw [Nat.add_sub_cancel' hc] at hopens hgoes
    have hlt' : (s.headerBytes ++ slice c.input c.pos c.input.size).size < msg.plan.header.size := by
      rw [size_append, size_slice_of_le le_rfl]
      omega
    rw [if_pos hshort, read_front hf h.suits hopens.bytes hlt']
    refine ⟨_, _, rest', hopens, hgoes, .inl ⟨_, rfl, ?_, rfl, hlt'⟩⟩
    have : headerSize = 3 := rfl
    omega
  · obtain ⟨rest', hopens, hgoes⟩ :=
      h.more (n := target msg s.headerBytes.size - s.headerBytes.size) (by omega) (by omega) hf
    rw [if_neg hshort]
    refine ⟨_, _, rest', hopens, hgoes, .inr ⟨rfl, ?_⟩⟩
    grind [size_slice_of_le]

theorem rest_eq (hf : msg.Framed frame) (h : Opens msg frame s c rest) (hfull : s.headerBytes.size = msg.plan.header.size) :
    s.headerBytes = msg.plan.header ∧ frame = msg.plan.header ++ rest := by
  obtain ⟨bytes, hbytes, -⟩ := hf.blocks
  obtain ⟨hheader, -⟩ := append_inj (h.bytes.symm.trans hbytes) hfull
  grind [bytes]

theorem moves_whole (h : Opens msg frame s c rest) (hz : slice c.input c.start c.input.size = frame ++ z)
    (hpos : c.pos = c.start + s.headerBytes.size) (hfree : msg.data.size ≤ c.free) :
    c.Moves { c with pos := c.start + frame.size, out := c.out ++ msg.data, free := c.free - msg.data.size } rest msg.data := by
  have hle := h.pos_le
  have hframe := congrArg ByteArray.size h.bytes
  rw [size_append] at hframe
  have hleft (n : Nat) : slice c.input (c.start + n) c.input.size = slice (frame ++ z) n (frame ++ z).size := by
    rw [← hz, size_slice_of_le le_rfl, slice_slice (by omega), Nat.add_sub_cancel' (by omega)]
  constructor
  · rfl
  · rfl
  · dsimp only
    omega
  · unfold Call.left
    rw [hpos, hleft, hleft, slice_append_right, h.bytes, append_assoc, slice_append_right]
  · rfl
  · dsimp only
    omega

section

variable (hf : msg.Framed frame) (h : Opens msg frame s c rest)

include hf h

/-- The bytes of the call are no frame, or all of the frame is there. -/
theorem frameSize_cases :
    msg.header.contentSize = none ∨ (∃ e, frameSize s.format (slice c.input c.start c.input.size) = .error e) ∨
      msg.ends = true ∧ c.pos = c.start + s.headerBytes.size ∧ ∃ z, slice c.input c.start c.input.size = frame ++ z := by
  obtain ⟨x, y, hxy, hmeets, hbegan⟩ := h.began
  rw [h.suits.format]
  rcases hbegan with ⟨rfl, hpos⟩ | ⟨hrelay, hpos, hlt⟩
  · rw [empty_append] at hxy
    subst hxy
    rcases hmeets with ⟨hends, hz⟩ | ⟨z, hz⟩
    · exact .inr (.inr ⟨hends, hpos, hz⟩)
    · by_cases hcut : 0 < z.size ∨ msg.ends = false
      · grind [frameSize_cut]
      grind [size_eq_zero_iff, append_empty]
  · refine hrelay.imp id fun hr => .inl ?_
    rcases hmeets with ⟨-, z, hz⟩ | ⟨z, hz⟩
    · have := hr x y z (y ++ z).size hxy hpos hlt
      rwa [slice_all, ← hz] at this
    · have := hr x y .empty (slice c.input c.start c.input.size).size hxy hpos hlt
      rwa [append_empty, hz, slice_append_of_le le_rfl, slice_all] at this

/-- All of the frame is there, and room for its content: it is decoded at once. -/
theorem atOnce?_whole (hfull : s.headerBytes.size = msg.plan.header.size) (hends : msg.ends = true) (hpos : c.pos = c.start + s.headerBytes.size)
    (hz : slice c.input c.start c.input.size = frame ++ z) (hn : msg.header.contentSize = some n) (hle : n ≤ c.free) :
    ∃ s' c', s.atOnce? c (.frame msg.header) = some (.done s' c') ∧ Goes s c rest msg.data s' c' .empty .empty ∧
      s'.stage = .start ∧ Stops msg s' c' .empty .empty := by
  have hfree : msg.data.size ≤ c.free := (hf.contentSize n hn).1.trans hle
  obtain ⟨bytes, hbytes, hblocks⟩ := hf.blocks
  rw [hends] at hblocks
  have heq := append_left_cancel ((h.rest_eq hf hfull).2.symm.trans hbytes)
  have hrest : 0 < rest.size := by
    have h3 : headerSize = 3 := rfl
    have := hblocks.headerSize_le
    rw [heq, size_append]
    omega
  have hdata : msg.data.size ≤ rest.size * Block.maxSize := by
    rw [msg.size_data, heq, size_append]
    exact hblocks.content_le.trans (Nat.mul_le_mul (Nat.le_add_right _ _) hf.blockSize_le)
  have hmoves := h.moves_whole hz hpos hfree
  have hlength : frameSize s.format (frame ++ z) = .ok frame.size := by rw [h.suits.format, frameSize_framed hf hends]
  have hdecode (test : Block.EndTest) : decodeAll s.format frame c.free (s.dict.getD .none) test = .ok msg.data := by
    rw [h.suits.format, decodeAll_framed hf hends h.suits.understood hfree]
  rw [atOnce?_some hn, if_neg (not_lt.2 hle), hz, hlength]
  dsimp only
  rw [slice_append_of_le le_rfl, slice_all, hdecode]
  refine ⟨_, _, rfl, ⟨⟨rest, msg.data, hmoves, append_empty.symm, append_empty.symm⟩, rfl, fun _ => .inr ?_, ?_⟩, rfl, ?_⟩
  · rw [hmoves.pos]
    omega
  · have hleft := congrArg ByteArray.size hmoves.left
    rw [size_append, Call.size_left, Call.size_left] at hleft
    unfold due
    rw [hleft, add_mul]
    dsimp only
    rw [size_append]
    omega
  · refine .past rfl rfl (h.outEnd.trans h.outStart.symm) h.outSize fun hh => ?_
    exact absurd (h.hostage.symm.trans hh) (by decide)

/-- The frame is decoded at once, or that is not tried. -/
theorem atOnce?_spec (hfull : s.headerBytes.size = msg.plan.header.size) :
    s.atOnce? c (.frame msg.header) = none ∧ s.Admits msg ∨
      ∃ s' c', s.atOnce? c (.frame msg.header) = some (.done s' c') ∧ Goes s c rest msg.data s' c' .empty .empty ∧
        s'.stage = .start ∧ Stops msg s' c' .empty .empty := by
  by_cases hwhole : c.pos = c.start + s.headerBytes.size ∧ Filled msg frame (slice c.input c.start c.input.size) c.free
  · obtain ⟨hpos, hends, ⟨z, hz⟩, n, hn, hle⟩ := hwhole
    exact .inr (h.atOnce?_whole hf hfull hends hpos hz hn hle)
  · refine .inl ⟨?_, h.window.resolve_right hwhole⟩
    rcases hn : msg.header.contentSize with _ | n
    · exact atOnce?_none hn
    · rw [atOnce?_some hn]
      by_cases hfree : c.free < n
      · exact if_pos hfree
      · rw [if_neg hfree]
        rcases h.frameSize_cases hf with hnone | ⟨e, he⟩ | ⟨hends, hpos, hz⟩
        · simp_all
        · rw [he]
        · exact absurd ⟨hpos, hends, hz, n, hn, Nat.le_of_not_lt hfree⟩ hwhole

/-- Behind the header the frame is decoded at once, or the decoder is inside it. -/
theorem step_full (hfull : s.headerBytes.size = msg.plan.header.size) :
    (∃ s' c', s.step c = .done s' c' ∧ Goes s c rest msg.data s' c' .empty .empty ∧
      s'.stage = .start ∧ Stops msg s' c' .empty .empty) ∨
    ∃ s', s.step c = .again s' c ∧ s'.settings = s.settings ∧ s'.stage = .read ∧ s'.expected ≠ 0 ∧ Live msg s' rest msg.data := by
  obtain ⟨hheader, hframe⟩ := h.rest_eq hf hfull
  have hread : Frame.read s.format s.headerBytes = .ok (.frame msg.header) := by
    have := Frame.Description.read_write .empty hf.fits
    rw [append_empty] at this
    rw [h.suits.format, hheader]
    exact this
  unfold Stream.step
  rw [h.stage]
  unfold Stream.stepHeader
  rcases h.atOnce?_spec hf hfull with ⟨hnone, hw⟩ | ⟨s', c', hsome, hgoes, hstage, hstops⟩
  · obtain ⟨s', heq, hsettings, hstage, hexp, hlive⟩ := startFrame_live hf h.suits hw h.outSize h.outStart h.outEnd h.loaded hframe
    simp_all
  simp_all

end

/-- From the header on, a call steps until it stops, in the header or behind it. -/
theorem steps (hf : msg.Framed frame) (fuel : Nat) (s : Stream) (c : Call) (rest : ByteArray) (h : Opens msg frame s c rest)
    (hfuel : 2 * (c.input.size - c.pos) + 5 ≤ fuel) :
    ∃ s' c' rest' out', Goes s c rest msg.data s' c' rest' out' ∧
      ((∃ n, s.steps c fuel = .hint s' c' n ∧ n ≠ 0 ∧ c'.pos = c'.input.size ∧ s'.headerBytes.size < msg.plan.header.size ∧
          out' = msg.data ∧ Opens msg frame s' c' rest') ∨
        s.steps c fuel = .done s' c' ∧ (s'.stage ≠ .start → s'.expected = 0 → c.pos < c'.pos) ∧ Stops msg s' c' rest' out') := by
  induction fuel generalizing s c rest with
  | zero => omega
  | succ fuel ih =>
    rw [Stream.steps]
    by_cases hfull : s.headerBytes.size = msg.plan.header.size
    · rcases h.step_full hf hfull with ⟨s', c', heq, hgoes, hstage, hstops⟩ | ⟨s₁, heq, hsettings, hstage, hexp, hlive⟩
      · grind
      · have hgoes : Goes s c rest msg.data s₁ c rest msg.data := ⟨(Goes.refl s c rest msg.data).moves, hsettings, fun h0 => absurd h0 hexp,
          by unfold due; rw [hlive.outEnd_eq (by rw [hstage]; decide)]; omega⟩
        have hweight : s₁.weight c = 2 * (c.input.size - c.pos) + 1 := by
          unfold weight
          rw [if_neg (by rw [hstage]; decide)]
        obtain ⟨s', c', rest', out', hsteps, hgoes', hstops⟩ := hlive.steps hf fuel s₁ c rest msg.data h.pos_le h.meets (by omega)
        rw [heq]
        exact ⟨s', c', rest', out', hgoes.trans hgoes',
          .inr ⟨hsteps, fun _ h0 => (hgoes'.past h0).resolve_left hexp, hstops⟩⟩
    · have hlt : s.headerBytes.size < msg.plan.header.size := lt_of_le_of_ne h.le hfull
      have htarget := target_le hf hlt
      obtain ⟨s₁, c₁, rest₁, hopens, hgoes, ⟨n, heq, hn, hpos, hshort⟩ | ⟨heq, hsize⟩⟩ := h.step hf hlt
      · rw [heq]
        exact ⟨s₁, c₁, rest₁, msg.data, hgoes, .inl ⟨n, rfl, hn, hpos, hshort, rfl, hopens⟩⟩
      · obtain ⟨x, y, hm, hx, -⟩ := hgoes.moves
        have hloaded : x.size = target msg s.headerBytes.size - s.headerBytes.size := by
          have h1 := congrArg ByteArray.size (h.bytes.symm.trans hopens.bytes)
          rw [hx, size_append, size_append, size_append] at h1
          omega
        have hpos := hm.pos
        have hle := hopens.pos_le
        rw [hm.input] at hle
        obtain ⟨s', c', rest', out', hgoes', hcases⟩ := ih s₁ c₁ rest₁ hopens (by rw [hm.input]; omega)
        rw [heq]
        refine ⟨s', c', rest', out', hgoes.trans hgoes', hcases.imp id fun hdone => ⟨hdone.1, fun hne h0 => ?_, hdone.2.2⟩⟩
        have := hdone.2.1 hne h0
        omega

end Opens

end ZstCodec.Decompress.Stream
