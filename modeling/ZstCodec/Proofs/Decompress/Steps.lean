import ZstCodec.Proofs.Decompress.Ring

/-! # Steps inside a frame

`Live` says what a decoder inside a frame needs and owes, `Live.step` what a step of a call does, and `Live.steps` where
a call stops: there is no room left, or no input, or the frame is over. -/

namespace ZstCodec.Decompress.Stream

open Match Compress
open Block (Coding Header headerSize maxSize)

variable {s s' : Stream} {msg : Message} {frame rest out : ByteArray} {place : Nat}

/-! ### How much is awaited -/

theorem Awaits.expected_le (h : Awaits msg s place rest out) (hends : msg.ends = true) : s.expected ≤ rest.size := by
  cases h with
  | header _ hexp _ hblocks =>
    grind [Blocks.headerSize_le]
  | body _ hexp => rw [hexp, size_append]; omega
  | checksum _ hexp _ hcheck => simp_all [size_closing]
  | past _ hexp => rw [hexp]; exact Nat.zero_le _

theorem Awaits.expected_le_inSize (hf : msg.Framed frame) (h : Awaits msg s place rest out) : s.expected ≤ s.inSize ∨ s.expected = 0 := by
  cases h with
  | header _ hexp hh =>
    have := hh.inSize
    rw [hexp]
    exact .inl (le_trans (by decide) (le_trans (le_max_right _ 4) this))
  | @body i k window size c c' c'' r r' body rest last _ hexp _ _ hh _ hk hblock _ hbody =>
    have := hh.inSize
    have := hf.le_blockMax hh.origin_le hk hblock
    have := (Body.bodySize (h := ⟨last, s.block.kind, size⟩) hbody hk).2.2
    exact .inl (by omega)
  | checksum _ hexp _ _ hh =>
    have := hh.inSize
    exact .inl (by omega)
  | past _ hexp => exact .inr hexp

/-- Where nothing is awaited, the frame is over. -/
theorem Awaits.of_expected_zero (h : Awaits msg s place rest out) (h0 : s.expected = 0) :
    s.part = .opening ∧ msg.ends = true ∧ rest = .empty ∧ out = .empty := by
  cases h with
  | header _ hexp => exact absurd (hexp.symm.trans h0) (by decide)
  | body _ hexp hpos => omega
  | checksum _ hexp => omega
  | past hpart _ hends => exact ⟨hpart, hends, rfl, rfl⟩

theorem Awaits.accepts_wanted (h : Awaits msg s place rest out) (available : Nat) :
    (s.wanted available = 0 ↔ s.expected = 0) ∧
      (s.wanted available ≤ available → s.Accepts (s.wanted available) ∧ s.wanted available ≤ s.expected) := by
  have hbody : s.part = .block ∨ s.part = .lastBlock → s.expected ≠ 0 := by
    intro hp h0
    rw [(h.of_expected_zero h0).1] at hp
    rcases hp with hp | hp <;> cases hp
  unfold Stream.wanted
  split
  · rename_i hstored
    have := hbody hstored.1
    refine ⟨by omega, fun hle => ⟨.inr ⟨hstored.1, hstored.2, by omega⟩, by omega⟩⟩
  · exact ⟨Iff.rfl, fun _ => ⟨.inl rfl, le_rfl⟩⟩

/-! ### Calls -/

/-- Input seen from a frame of which `rest` is left: some of it, or all of it and more. -/
def Meets (ends : Bool) (left rest : ByteArray) : Prop := (ends = true ∧ ∃ z, left = rest ++ z) ∨ ∃ z, rest = left ++ z

namespace Call

def left (c : Call) : ByteArray := slice c.input c.pos c.input.size

/-- The call has taken `x` and given `y`. -/
structure Moves (c c' : Call) (x y : ByteArray) : Prop where
  input : c'.input = c.input
  start : c'.start = c.start
  pos : c'.pos = c.pos + x.size
  left : c.left = x ++ c'.left
  out : c'.out = c.out ++ y
  free : c.free = y.size + c'.free

variable {c c' c'' : Call} {x x' y y' : ByteArray}

theorem Moves.refl (c : Call) : c.Moves c .empty .empty where
  input := rfl
  start := rfl
  pos := rfl
  left := empty_append.symm
  out := append_empty.symm
  free := (zero_add _).symm

theorem Moves.trans (h : c.Moves c' x y) (h' : c'.Moves c'' x' y') : c.Moves c'' (x ++ x') (y ++ y') where
  input := h'.input.trans h.input
  start := h'.start.trans h.start
  pos := by rw [h'.pos, h.pos, size_append, add_assoc]
  left := by rw [h.left, h'.left, append_assoc]
  out := by rw [h'.out, h.out, append_assoc]
  free := by rw [h.free, h'.free, size_append, add_assoc]

theorem size_left (c : Call) : c.left.size = c.input.size - c.pos := size_slice_of_le le_rfl

theorem Moves.taken (h : c.Moves c' x y) (hc : c.pos ≤ c.input.size) : x = slice c.input c.pos c'.pos ∧ c'.pos ≤ c.input.size := by
  have hsize := congrArg ByteArray.size h.left
  rw [size_append, size_left] at hsize
  have hle : c.pos + x.size ≤ c.input.size := by omega
  have hx : slice c.left 0 x.size = x := by rw [h.left, slice_append_of_le le_rfl, slice_all]
  rw [h.pos]
  refine ⟨?_, hle⟩
  calc x = slice c.left 0 x.size := hx.symm
    _ = slice c.input c.pos (c.pos + x.size) := by simp_all [slice_slice, left.eq_1]

theorem Moves.read (hn : c.pos + n ≤ c.input.size) :
    c.Moves { c with pos := c.pos + n } (slice c.input c.pos (c.pos + n)) .empty where
  input := rfl
  start := rfl
  pos := by simp_all
  left := (slice_append_slice (Nat.le_add_right _ _) hn).symm
  out := append_empty.symm
  free := (zero_add _).symm

theorem Moves.give (y : ByteArray) (hy : y.size ≤ c.free) :
    c.Moves { c with out := c.out ++ y, free := c.free - y.size } .empty y where
  input := rfl
  start := rfl
  pos := rfl
  left := empty_append.symm
  out := rfl
  free := by dsimp only; omega

end Call

theorem Meets.take (h : Meets ends left rest) (hx : left = x ++ left')
    (hle : ends = true → x.size ≤ rest.size) : ∃ rest', rest = x ++ rest' ∧ Meets ends left' rest' := by
  rcases h with ⟨hends, z, hz⟩ | ⟨z, hz⟩
  · obtain ⟨w, hw, hw'⟩ := exists_append_of_le (hx.symm.trans hz) (hle hends)
    exact ⟨w, hw, .inl ⟨hends, z, hw'⟩⟩
  · exact ⟨left' ++ z, by rw [hz, hx, append_assoc], .inr ⟨z, rfl⟩⟩

/-! ### Inside a frame -/

/-- The decoder is inside a frame, of which it still needs bytes and owes content. -/
inductive Live (msg : Message) (s : Stream) : ByteArray → ByteArray → Prop
  | read {rest out : ByteArray} : s.stage = .read → s.loaded = .empty → s.outEnd = s.outStart → (s.expected ≠ 0 → s.Roomy) →
      s.outSize < Frame.unknownSize → Awaits msg s s.outStart rest out → Live msg s rest out
  | load {rest out : ByteArray} : s.stage = .load → 0 < s.loaded.size → s.loaded.size < s.expected → s.outEnd = s.outStart → s.Roomy →
      s.outSize < Frame.unknownSize → Awaits msg s s.outStart (s.loaded ++ rest) out → Live msg s rest out
  | flush {rest out old x : ByteArray} : s.stage = .flush → s.loaded = .empty → 0 < x.size → s.outEnd = s.outStart + x.size →
      s.history = old ++ x → s.outSize < Frame.unknownSize → Awaits msg s s.outEnd rest out → Live msg s rest (x ++ out)

theorem Live.outEnd_eq (h : Live msg s rest out) (hs : s.stage ≠ .flush) : s.outEnd = s.outStart := by
  cases h with
  | read _ _ hend => exact hend
  | load _ _ _ hend => exact hend
  | flush hstage => exact absurd hstage hs

/-- What a call leaves as it is while it steps. -/
def settings (s : Stream) : Frame.Format × Nat × Option Dictionary × Nat × Bool := (s.format, s.maxWindow, s.dict, s.idle, s.hostage)

/-- What a call has given, what waits, and what blocks in the input may hold. -/
def due (s : Stream) (c : Call) : Nat := c.out.size + (s.outEnd - s.outStart) + (c.input.size - c.pos) * maxSize

structure Goes (s : Stream) (c : Call) (rest out : ByteArray) (s' : Stream) (c' : Call) (rest' out' : ByteArray) : Prop where
  moves : ∃ x y, c.Moves c' x y ∧ rest = x ++ rest' ∧ out = y ++ out'
  settings : s'.settings = s.settings
  past : s'.expected = 0 → s.expected = 0 ∨ c.pos < c'.pos
  due : s'.due c' ≤ s.due c

variable {c c' c'' : Call} {s'' : Stream} {rest' out' rest'' out'' : ByteArray}

theorem Goes.refl (s : Stream) (c : Call) (rest out : ByteArray) : Goes s c rest out s c rest out :=
  ⟨⟨_, _, .refl c, empty_append.symm, empty_append.symm⟩, rfl, .inl, le_rfl⟩

theorem Goes.trans (h : Goes s c rest out s' c' rest' out') (h' : Goes s' c' rest' out' s'' c'' rest'' out'') :
    Goes s c rest out s'' c'' rest'' out'' := by
  obtain ⟨⟨x, y, hm, hx, hy⟩, hs, ho, hd⟩ := h
  obtain ⟨⟨x', y', hm', hx', hy'⟩, hs', ho', hd'⟩ := h'
  refine ⟨⟨x ++ x', y ++ y', hm.trans hm', ?_, ?_⟩, hs'.trans hs, fun h0 => ?_, hd'.trans hd⟩
  · rw [hx, hx', append_assoc]
  · rw [hy, hy', append_assoc]
  · have := hm.pos
    have := hm'.pos
    omega

theorem Awaits.live_advance (hf : msg.Framed frame) (h : Awaits msg s s.outStart (src ++ rest) out) (hroom : s.Roomy)
    (hn : 0 < src.size) (hsrc : s.Accepts src.size) (hloaded : s.loaded = .empty) (hend : s.outEnd = s.outStart)
    (hout : s.outSize < Frame.unknownSize) :
    ∃ s', s.advance src = (s', .ok ()) ∧ s'.settings = s.settings ∧ Live msg s' rest out ∧ s'.outEnd - s'.outStart ≤ maxSize := by
  obtain ⟨s', heq, hkept, hcases⟩ := h.advance hf hroom hn hsrc
  simp only [kept, Prod.mk.injEq] at hkept
  obtain ⟨h1, h2, h3, h4, h5, h6, h7, h8, h9, h10⟩ := hkept
  refine ⟨s', heq, by simp_all [settings], ?_⟩
  rcases hcases with ⟨hstage, hend', hawaits⟩ | ⟨x, out', hstage, hx, hmax, hend', hhist, rfl, hawaits⟩
  · refine ⟨.read hstage (h6.trans hloaded) (by rw [hend', hend, h8]) (fun _ => ?_) (by rwa [h9]) hawaits, by omega⟩
    unfold Roomy
    rwa [h8, h9, h10]
  · exact ⟨.flush hstage (h6.trans hloaded) hx (by rw [hend', h8]) hhist (by rwa [h9]) hawaits, by omega⟩

/-- Why a call stops: there is no room, or no input, or the frame is over. -/
inductive Stops (msg : Message) (s : Stream) (c : Call) : ByteArray → ByteArray → Prop
  | full {rest out : ByteArray} : s.stage = .flush → c.free = 0 → Live msg s rest out → Stops msg s c rest out
  | dry {rest out : ByteArray} : s.stage ≠ .flush → s.expected ≠ 0 → c.input.size ≤ c.pos → Live msg s rest out → Stops msg s c rest out
  | past : s.stage = .start → s.expected = 0 → s.outEnd = s.outStart → s.outSize < Frame.unknownSize →
      (s.hostage = true → Live msg { s with stage := .read } .empty .empty) → Stops msg s c .empty .empty

/-- Bounds the steps that a call still takes. -/
def weight (s : Stream) (c : Call) : Nat := 2 * (c.input.size - c.pos) + if s.stage = .flush then 2 else 1

/-- What a step inside a frame does. -/
def Advances (msg : Message) (s : Stream) (c : Call) (rest out : ByteArray) (r : Step) : Prop :=
  ∃ s' c' rest' out', Goes s c rest out s' c' rest' out' ∧
    (r = .again s' c' ∧ Live msg s' rest' out' ∧ Meets msg.ends c'.left rest' ∧ s'.weight c' < s.weight c ∨
      r = .done s' c' ∧ Stops msg s' c' rest' out')

theorem weight_lt (hstage : s.stage ≠ .flush) (hn : 0 < n) (hle : c.pos + n ≤ c.input.size) :
    s'.weight { c with pos := c.pos + n } < s.weight c := by
  grind [weight]

/-- For every byte that is read, a block may wait. -/
theorem due_le (hle : c.pos + n ≤ c.input.size) (hw : s'.outEnd - s'.outStart ≤ n * maxSize + (s.outEnd - s.outStart)) :
    s'.due { c with pos := c.pos + n } ≤ s.due c := by
  have hleft : c.input.size - c.pos = c.input.size - (c.pos + n) + n := by omega
  unfold due
  rw [hleft, add_mul]
  dsimp only
  omega

theorem due_le_of_pos (hn : 0 < n) (hle : c.pos + n ≤ c.input.size) (hw : s'.outEnd - s'.outStart ≤ maxSize) :
    s'.due { c with pos := c.pos + n } ≤ s.due c :=
  due_le hle (hw.trans ((Nat.le_mul_of_pos_left _ hn).trans (Nat.le_add_right _ _)))

/-- Loading a part, the call takes what there is of it. -/
theorem stepLoad_live (hf : msg.Framed frame) (hc : c.pos ≤ c.input.size) (hstage : s.stage = .load) (hloaded : s.loaded.size < s.expected)
    (hpos : 0 < s.loaded.size ∨ c.pos < c.input.size) (hend : s.outEnd = s.outStart) (hroom : s.Roomy) (hout : s.outSize < Frame.unknownSize)
    (h : Awaits msg s s.outStart (s.loaded ++ rest) out) (hm : Meets msg.ends c.left rest) :
    Advances msg s c rest out (s.stepLoad c) := by
  have hfits := h.expected_le_inSize hf
  have hwhole : msg.ends = true → s.expected ≤ s.loaded.size + rest.size := fun hends => by
    have := h.expected_le hends
    rwa [size_append] at this
  unfold Stream.stepLoad
  dsimp only
  rw [if_neg (by omega)]
  generalize hn : min (s.expected - s.loaded.size) (c.input.size - c.pos) = n
  have hmoves := Call.Moves.read (c := c) (n := n) (by omega)
  have hsize : (slice c.input c.pos (c.pos + n)).size = n := by
    rw [size_slice_of_le (by omega), Nat.add_sub_cancel_left]
  obtain ⟨rest', rfl, hm'⟩ := hm.take hmoves.left fun hends => by
    have := hwhole hends
    omega
  rw [← append_assoc] at h
  by_cases hshort : n < s.expected - s.loaded.size
  · -- all input is loaded
    rw [if_pos hshort]
    refine ⟨{ s with loaded := s.loaded ++ slice c.input c.pos (c.pos + n) }, { c with pos := c.pos + n }, rest', out,
      ⟨⟨_, _, hmoves, rfl, empty_append.symm⟩, rfl, .inl, due_le (by omega) (Nat.le_add_left _ _)⟩,
      .inr ⟨rfl, .dry (by rw [hstage]; decide) (by dsimp only; omega) (by dsimp only; omega) ?_⟩⟩
    refine .load hstage ?_ ?_ hend hroom hout (h.congr rfl rfl rfl rfl)
    all_goals
      grind
  · rw [if_neg hshort]
    have hsrc : (s.loaded ++ slice c.input c.pos (c.pos + n)).size = s.expected := by
      rw [size_append, hsize]
      omega
    obtain ⟨s', heq, hsettings, hlive, hmax⟩ := Awaits.live_advance (s := { s with loaded := .empty }) hf
      (h.congr rfl rfl rfl rfl) hroom (by omega) (.inl hsrc) rfl hend hout
    rw [heq]
    refine ⟨s', _, rest', out,
      ⟨⟨_, _, hmoves, rfl, empty_append.symm⟩, hsettings, fun _ => .inr ?_, due_le_of_pos (by omega) (by omega) hmax⟩,
      .inl ⟨rfl, hlive, hm', weight_lt (by rw [hstage]; decide) (by omega) (by omega)⟩⟩
    dsimp only
    omega

/-- To load a part is to read it. -/
theorem Advances.of_loading (hstage : s.stage = .read) (h : Advances msg { s with stage := .load } c rest out r) :
    Advances msg s c rest out r := by
  obtain ⟨s', c', rest', out', ⟨hm, hs, ho, hd⟩, hcases⟩ := h
  have hweight : ({ s with stage := .load } : Stream).weight c = s.weight c := by
    unfold weight
    rw [if_neg (by simp), if_neg (by rw [hstage]; decide)]
  rw [hweight] at hcases
  exact ⟨s', c', rest', out', ⟨hm, hs, ho, hd⟩, hcases⟩

theorem stepRead_live (hf : msg.Framed frame) (hc : c.pos ≤ c.input.size) (hloaded : s.loaded = .empty) (hstage : s.stage = .read) (hend : s.outEnd = s.outStart)
    (hroom : s.expected ≠ 0 → s.Roomy) (hout : s.outSize < Frame.unknownSize) (h : Awaits msg s s.outStart rest out)
    (hm : Meets msg.ends c.left rest) : Advances msg s c rest out (s.stepRead c) := by
  obtain ⟨hzero, haccepts⟩ := h.accepts_wanted (c.input.size - c.pos)
  unfold Stream.stepRead
  dsimp only
  generalize s.wanted (c.input.size - c.pos) = n at hzero haccepts
  by_cases h0 : n = 0
  · obtain ⟨-, -, rfl, rfl⟩ := h.of_expected_zero (hzero.1 h0)
    rw [if_pos h0]
    refine ⟨{ s with stage := .start }, c, _, _, ⟨(Goes.refl s c _ _).moves, rfl, .inl, le_rfl⟩, .inr ⟨rfl, .past rfl (hzero.1 h0) hend hout fun _ => ?_⟩⟩
    exact .read rfl hloaded hend hroom hout (h.congr rfl rfl rfl rfl)
  · have hexp0 : s.expected ≠ 0 := fun he => h0 (hzero.2 he)
    rw [if_neg h0]
    by_cases hle : n ≤ c.input.size - c.pos
    · obtain ⟨hacc, hexp⟩ := haccepts hle
      have hsize : (slice c.input c.pos (c.pos + n)).size = n := by
        rw [size_slice_of_le (by omega), Nat.add_sub_cancel_left]
      have hmoves := Call.Moves.read (c := c) (n := n) (by omega)
      obtain ⟨rest', rfl, hm'⟩ := hm.take hmoves.left fun hends => by
        have := h.expected_le hends
        omega
      obtain ⟨s', heq, hsettings, hlive, hmax⟩ := h.live_advance hf (hroom hexp0) (by omega) (by rwa [hsize]) hloaded hend hout
      rw [if_pos hle, heq]
      refine ⟨s', _, rest', out,
        ⟨⟨_, _, hmoves, rfl, empty_append.symm⟩, hsettings, fun _ => .inr ?_, due_le_of_pos (by omega) (by omega) hmax⟩,
        .inl ⟨rfl, hlive, hm', weight_lt (by rw [hstage]; decide) (by omega) (by omega)⟩⟩
      dsimp only
      omega
    · rw [if_neg hle]
      by_cases hdry : c.input.size - c.pos = 0
      · rw [if_pos hdry]
        refine ⟨s, c, rest, out, .refl s c rest out, .inr ⟨rfl, .dry (by rw [hstage]; decide) hexp0 (by omega) ?_⟩⟩
        exact .read hstage hloaded hend hroom hout h
      · rw [if_neg hdry]
        have hpos : ByteArray.empty.size < s.expected := pos_of_ne_zero hexp0
        refine Advances.of_loading hstage
          (stepLoad_live hf hc rfl (by rw [hloaded]; exact hpos) (.inr (by omega)) hend (hroom hexp0) hout ?_ hm)
        rw [hloaded, empty_append]
        exact h.congr rfl rfl rfl rfl

/-- Content that waits is given out as far as there is room. -/
theorem stepFlush_live (hstage : s.stage = .flush) (hloaded : s.loaded = .empty) (hx : 0 < x.size)
    (hend : s.outEnd = s.outStart + x.size) (hhist : s.history = old ++ x) (hout : s.outSize < Frame.unknownSize)
    (h : Awaits msg s s.outEnd rest out) (hm : Meets msg.ends c.left rest) : Advances msg s c rest (x ++ out) (s.stepFlush c) := by
  have hsize : s.history.size = old.size + x.size := by rw [hhist, size_append]
  have hwaiting : s.outEnd - s.outStart = x.size := by omega
  have hslice (n : Nat) : slice s.history (s.history.size - x.size) (s.history.size - x.size + n) = slice x 0 n := by
    rw [hsize, Nat.add_sub_cancel, hhist, slice_append_of_ge le_rfl, Nat.sub_self, Nat.add_sub_cancel_left]
  unfold Stream.stepFlush
  dsimp only
  rw [hwaiting, hslice]
  generalize hn : min c.free x.size = n
  have hgiven : (slice x 0 n).size = n := size_slice_of_le (by omega)
  have hmoves := Call.Moves.give (c := c) (slice x 0 n) (by omega)
  rw [hgiven] at hmoves
  have hdue {s' : Stream} {c' : Call} (hin : c'.input = c.input) (hpos : c'.pos = c.pos)
      (hw : c'.out.size + (s'.outEnd - s'.outStart) = c.out.size + x.size) : s'.due c' ≤ s.due c := by
    unfold due
    rw [hin, hpos, hw, hwaiting]
  by_cases hshort : n < x.size
  · -- the rest of it still waits
    have hsplit : x = slice x 0 n ++ slice x n x.size := by
      rw [slice_append_slice (Nat.zero_le _) (by omega), slice_all]
    rw [if_pos hshort]
    refine ⟨{ s with outStart := s.outStart + n }, _, rest, slice x n x.size ++ out,
      ⟨⟨_, _, hmoves, empty_append.symm, ?_⟩, rfl, .inl, ?_⟩, .inr ⟨rfl, .full hstage (by dsimp only; omega) ?_⟩⟩
    · rw [← append_assoc, ← hsplit]
    · exact hdue rfl rfl (by rw [size_append, hgiven]; dsimp only; omega)
    · have hrest : (slice x n x.size).size = x.size - n := size_slice_of_le le_rfl
      have hold : s.history = old ++ slice x 0 n ++ slice x n x.size := by rw [append_assoc, ← hsplit, hhist]
      exact .flush hstage hloaded (by omega) (by dsimp only; omega) hold hout (h.congr rfl rfl rfl rfl)
  · have hall : slice x 0 n = x := by rw [show n = x.size by omega, slice_all]
    have hplace : s.outStart + n = s.outEnd := by omega
    rw [hall] at hmoves
    rw [if_neg hshort, hall, hplace]
    have hweight {s' : Stream} {c' : Call} (hs : s'.stage = .read) (hin : c'.input = c.input) (hpos : c'.pos = c.pos) :
        s'.weight c' < s.weight c := by
      unfold weight
      rw [hin, hpos, if_pos hstage, if_neg (by rw [hs]; decide)]
      omega
    by_cases hwrap : s.outSize < s.frame.contentSize.getD Frame.unknownSize ∧ s.outSize < s.outEnd + s.frame.blockMax
    · rw [if_pos hwrap]
      refine ⟨{ s with stage := .read, outStart := 0, outEnd := 0 }, _, rest, out,
        ⟨⟨_, _, hmoves, empty_append.symm, rfl⟩, rfl, .inl, hdue rfl rfl (by simp [size_append])⟩,
        .inl ⟨rfl, ?_, hm, hweight rfl rfl rfl⟩⟩
      refine .read rfl hloaded rfl (fun hexp => .inl ?_) hout ((h.wrap (by omega) hwrap.1 hwrap.2).congr rfl rfl rfl rfl)
      rw [zero_add]
      exact h.large hexp hwrap.1
    · rw [if_neg hwrap]
      refine ⟨{ s with stage := .read, outStart := s.outEnd }, _, rest, out,
        ⟨⟨_, _, hmoves, empty_append.symm, rfl⟩, rfl, .inl, hdue rfl rfl (by simp [size_append])⟩,
        .inl ⟨rfl, ?_, hm, hweight rfl rfl rfl⟩⟩
      refine .read rfl hloaded rfl (fun _ => ?_) hout (h.congr rfl rfl rfl rfl)
      by_cases hlarge : s.outSize < s.frame.contentSize.getD Frame.unknownSize
      · exact .inl (by dsimp only; omega)
      · rcases hsome : s.frame.contentSize with _ | N
        · simp_all
        · rw [hsome, Option.getD_some] at hlarge
          exact .inr ⟨N, hsome, Nat.le_of_not_lt hlarge⟩

theorem Live.step (hf : msg.Framed frame) (hc : c.pos ≤ c.input.size) (h : Live msg s rest out) (hm : Meets msg.ends c.left rest) :
    Advances msg s c rest out (s.step c) := by
  unfold Stream.step
  cases h with
  | read hstage hloaded hend hroom hout h =>
    grind [stepRead_live]
  | load hstage hpos hlt hend hroom hout h =>
    grind [stepLoad_live]
  | flush hstage hloaded hx hend hhist hout h =>
    simp_all [stepFlush_live]

theorem Goes.pos_le (h : Goes s c rest out s' c' rest' out') (hc : c.pos ≤ c.input.size) : c'.pos ≤ c'.input.size := by
  obtain ⟨x, y, hm, -, -⟩ := h.moves
  have := congrArg ByteArray.size hm.left
  grind [Call.size_left, Call.Moves.pos, Call.Moves.input]

theorem Live.steps (hf : msg.Framed frame) (fuel : Nat) (s : Stream) (c : Call) (rest out : ByteArray) (hc : c.pos ≤ c.input.size)
    (h : Live msg s rest out) (hm : Meets msg.ends c.left rest) (hfuel : s.weight c < fuel) :
    ∃ s' c' rest' out', s.steps c fuel = .done s' c' ∧ Goes s c rest out s' c' rest' out' ∧ Stops msg s' c' rest' out' := by
  induction fuel generalizing s c rest out with
  | zero => exact absurd hfuel (Nat.not_lt_zero _)
  | succ fuel ih =>
    rw [Stream.steps]
    obtain ⟨s₁, c₁, rest₁, out₁, hgoes, ⟨heq, hlive, hmeets, hweight⟩ | ⟨heq, hstops⟩⟩ := h.step hf hc hm
    · obtain ⟨s', c', rest', out', hsteps, hgoes', hstops⟩ := ih s₁ c₁ rest₁ out₁ (hgoes.pos_le hc) hlive hmeets (by omega)
      rw [heq]
      exact ⟨s', c', rest', out', hsteps, hgoes.trans hgoes', hstops⟩
    grind

end ZstCodec.Decompress.Stream
