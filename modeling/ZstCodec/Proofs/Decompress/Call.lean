import ZstCodec.Proofs.Decompress.Opening

/-! # Frames that come in pieces

`Owes` says what a decoder needs of a frame and owes of its content between two calls. `Owes.run`: a call goes on until
the frame is over, there is no room left, or all input is taken and nothing waits. -/

namespace ZstCodec.Decompress.Stream

open Match Compress
open Block (headerSize)

variable {s s' : Stream} {msg : Message} {frame rest rest' out out' : ByteArray} {c c' : Call}

variable {input : ByteArray} {free pos : Nat}

/-! ### Between two calls -/

/-- What a decoder needs of a frame and owes of its content, between two calls. -/
inductive Owes (msg : Message) (frame : ByteArray) (s : Stream) : ByteArray → ByteArray → Prop
  | start : s.stage = .start → s.outSize < Frame.unknownSize → Owes msg frame s frame msg.data
  | header {rest : ByteArray} : s.stage = .header → s.outStart = 0 → s.outEnd = 0 → s.loaded = .empty → s.hostage = false →
      s.outSize < Frame.unknownSize → frame = s.headerBytes ++ rest → s.headerBytes.size < msg.plan.header.size →
      (s.headerBytes = .empty ∨ Relayed msg frame) → Owes msg frame s rest msg.data
  | inside {rest out : ByteArray} : s.hostage = false → s.expected ≠ 0 → Live msg s rest out → Owes msg frame s rest out
  /-- The frame is over, but its last byte was given back since content waits. -/
  | hostage {rest out : ByteArray} : s.hostage = true → s.expected = 0 → rest.size = 1 → msg.ends = true → Live msg s .empty out →
      Owes msg frame s rest out

/-- What the decoder keeps from call to call. -/
def fixed (s : Stream) : Frame.Format × Nat × Option Dictionary := (s.format, s.maxWindow, s.dict)

theorem Suits.congr (h : s.Suits msg) (hs : s'.fixed = s.fixed) : s'.Suits msg := by
  simp only [fixed, Prod.mk.injEq] at hs
  obtain ⟨h1, h2, h3⟩ := hs
  exact ⟨h1.trans h.format, h3 ▸ h.understood⟩

theorem Admits.congr (h : s.Admits msg) (hs : s'.fixed = s.fixed) : s'.Admits msg := by
  simp only [fixed, Prod.mk.injEq] at hs
  exact le_trans h (le_of_eq hs.2.1.symm)

section

variable (h : Live msg s rest out)

include h

/-- Neither the count of idle calls nor the byte given back matters inside a frame. -/
theorem Live.congr (idle : Nat) (hostage : Bool) : Live msg { s with idle, hostage } rest out := by
  cases h with
  | read hstage hloaded hend hroom hout h => exact .read hstage hloaded hend hroom hout (h.congr rfl rfl rfl rfl)
  | load hstage hpos hlt hend hroom hout h => exact .load hstage hpos hlt hend hroom hout (h.congr rfl rfl rfl rfl)
  | flush hstage hloaded hx hend hhist hout h => exact .flush hstage hloaded hx hend hhist hout (h.congr rfl rfl rfl rfl)

theorem Live.rest_pos (hends : msg.ends = true) (hexp : s.expected ≠ 0) : 0 < rest.size := by
  cases h with
  | read _ _ _ _ _ h =>
    have := h.expected_le hends
    omega
  | load _ _ _ _ _ _ h =>
    have := h.expected_le hends
    rw [size_append] at this
    omega
  | flush _ _ _ _ _ _ h =>
    have := h.expected_le hends
    omega

theorem Live.waiting_pos (hstage : s.stage = .flush) : s.outEnd ≠ s.outStart ∧ 0 < out.size := by
  cases h with
  | read hs => simp_all
  | load hs => simp_all
  | flush _ _ hx hend =>
    rw [size_append]
    omega

theorem Live.stage_ne : s.stage ≠ .start ∧ s.stage ≠ .header := by
  cases h with
  | read hs => simp [hs]
  | load hs => simp [hs]
  | flush hs => simp [hs]

theorem Live.loaded_lt (hexp : s.expected ≠ 0) : s.loaded.size < s.expected := by
  cases h with
  | read _ hl => rw [hl]; exact pos_of_ne_zero hexp
  | load _ _ hlt => exact hlt
  | flush _ hl => rw [hl]; exact pos_of_ne_zero hexp

/-- Where nothing more is awaited, the frame is over. -/
theorem Live.of_expected_zero (h0 : s.expected = 0) : msg.ends = true ∧ rest = .empty := by
  cases h with
  | read _ _ _ _ _ h => exact ⟨(h.of_expected_zero h0).2.1, (h.of_expected_zero h0).2.2.1⟩
  | load _ hpos hlt => omega
  | flush _ _ _ _ _ _ h => exact ⟨(h.of_expected_zero h0).2.1, (h.of_expected_zero h0).2.2.1⟩

theorem Live.size_of_expected_zero (h0 : s.expected = 0) : out.size = s.outEnd - s.outStart := by
  cases h with
  | read _ _ hend _ _ h => rw [(h.of_expected_zero h0).2.2.2, hend, size_empty, Nat.sub_self]
  | load _ hpos hlt => omega
  | flush _ _ _ hend _ _ h => rw [(h.of_expected_zero h0).2.2.2, append_empty, hend, Nat.add_sub_cancel_left]

end

/-! ### The end of a call -/

/-- A call that has got somewhere, or is not the last of too many, does not fail. -/
theorem checkProgress_spec (h : s.idle + 1 < maxIdle ∨ (c.pos = c.start → c.out.size = 0 → c.free ≠ 0 ∧ c.pos ≠ c.input.size)) :
    ∃ idle, s.checkProgress c = ({ s with idle }, none) ∧ (idle = 0 ∨ idle = s.idle + 1 ∧ c.pos = c.start ∧ c.out.size = 0) := by
  unfold Stream.checkProgress
  grind

/-- How a call ends that has got to some place, where the decoder still needs `rest` and owes `out`: the frame is over, or
other calls follow. In the end it may have to take a byte more, or one less. -/
inductive Ends (msg : Message) (frame : ByteArray) (s : Stream) (c : Call) : ByteArray → ByteArray → Nat → Nat → Prop
  | past : s.stage = .start → s.outSize < Frame.unknownSize → Ends msg frame s c .empty .empty c.pos 0
  | next {rest out : ByteArray} {hint : Nat} : hint ≠ 0 → Owes msg frame s rest out →
      c.free = 0 ∧ 0 < out.size ∨ c.input.size ≤ c.pos ∧ s.stage ≠ .flush → Ends msg frame s c rest out c.pos hint
  | giveBack {out : ByteArray} : s.expected = 0 → c.free = 0 → 0 < out.size → out.size = s.outEnd - s.outStart → (∀ last : ByteArray, last.size = 1 → Owes msg frame s last out) →
      Ends msg frame s c .empty out (c.pos - 1) 1

theorem hintAfter_spec (hhostage : s.hostage = false) (h : Stops msg s c rest out) :
    ∃ s' pos hint, s.hintAfter c = (s', pos, hint) ∧ s'.fixed = s.fixed ∧ s'.idle = s.idle ∧ s'.expected = s.expected ∧
      s'.outEnd - s'.outStart = s.outEnd - s.outStart ∧ Ends msg frame s' c rest out pos hint := by
  unfold Stream.hintAfter
  cases h with
  | full hstage hfree hlive =>
    obtain ⟨hwait, hout⟩ := hlive.waiting_pos hstage
    by_cases h0 : s.expected = 0
    · obtain ⟨hends, rfl⟩ := hlive.of_expected_zero h0
      rw [if_pos h0, if_neg hwait, if_neg (by rw [hhostage]; decide)]
      refine ⟨_, _, _, rfl, rfl, rfl, rfl, rfl, .giveBack h0 hfree hout (hlive.size_of_expected_zero h0) fun last hlast => ?_⟩
      exact .hostage rfl h0 hlast hends (hlive.congr s.idle true)
    · have := hlive.loaded_lt h0
      rw [if_neg h0]
      exact ⟨_, _, _, rfl, rfl, rfl, rfl, rfl, .next (by omega) (.inside hhostage h0 hlive) (.inl ⟨hfree, hout⟩)⟩
  | dry hstage hexp hpos hlive =>
    have := hlive.loaded_lt hexp
    rw [if_neg hexp]
    exact ⟨_, _, _, rfl, rfl, rfl, rfl, rfl, .next (by omega) (.inside hhostage hexp hlive) (.inr ⟨hpos, hstage⟩)⟩
  | past hstage hexp hend hout =>
    rw [if_pos hexp, if_pos hend, if_neg (by rw [hhostage]; decide)]
    exact ⟨_, _, _, rfl, rfl, rfl, rfl, rfl, .past hstage hout⟩

theorem hintAfter_hostage (hhostage : s.hostage = true) (hends : msg.ends = true) (h : Stops msg s c .empty out) :
    ∃ s' pos hint, s.hintAfter c = (s', pos, hint) ∧ s'.fixed = s.fixed ∧ s'.idle = s.idle ∧
      (hint = 1 ∧ pos = c.pos ∧ (∀ last : ByteArray, last.size = 1 → Owes msg frame s' last out) ∧
          (c.free = 0 ∧ 0 < out.size ∨ c.input.size ≤ c.pos ∧ s'.stage ≠ .flush) ∨
        hint = 0 ∧ pos = c.pos + 1 ∧ c.pos < c.input.size ∧ out = .empty ∧ s'.stage = .start ∧ s'.outSize < Frame.unknownSize) := by
  have hover (hlive : Live msg s .empty out) : s.expected = 0 := by
    by_contra hexp
    exact absurd (hlive.rest_pos hends hexp) (lt_irrefl _)
  unfold Stream.hintAfter
  generalize hempty : ByteArray.empty = rest at h
  cases h with
  | full hstage hfree hlive =>
    subst hempty
    obtain ⟨hwait, hout⟩ := hlive.waiting_pos hstage
    have h0 := hover hlive
    rw [if_pos h0, if_neg hwait, if_pos hhostage]
    exact ⟨_, _, _, rfl, rfl, rfl, .inl ⟨rfl, rfl, fun last hlast => .hostage hhostage h0 hlast hends hlive, .inl ⟨hfree, hout⟩⟩⟩
  | dry _ hexp _ hlive =>
    simp_all
  | past hstage hexp hend hout hlive =>
    rw [if_pos hexp, if_pos hend, if_pos hhostage]
    by_cases hpos : c.input.size ≤ c.pos
    · rw [if_pos hpos]
      refine ⟨_, _, _, rfl, rfl, rfl, .inl ⟨rfl, rfl, fun last hlast => ?_, .inr ⟨hpos, by simp⟩⟩⟩
      exact .hostage hhostage hexp hlast hends (hlive hhostage)
    grind

/-- How much content waits. What a decoder keeps between two frames does not count. -/
def waits (s : Stream) : Nat := if s.stage = .start then 0 else s.outEnd - s.outStart

theorem waits_le (s : Stream) : s.waits ≤ s.outEnd - s.outStart := by
  unfold waits
  split <;> omega

theorem waits_of_ne (h : s.stage ≠ .start) : s.waits = s.outEnd - s.outStart := if_neg h

/-- What a call does for a frame of which `rest` is needed and `out` is owed. -/
structure Handled (msg : Message) (frame : ByteArray) (s : Stream) (rest out input : ByteArray) (pos free : Nat) (s' : Stream) (o : Outcome) :
    Prop where
  fixed : s'.fixed = s.fixed
  /-- A call may be idle without input or room, or with nothing more to give out. -/
  idle : s'.idle ≤ s.idle ∨ s'.idle = s.idle + 1 ∧ (o.pos = pos ∨ s.hostage = true ∧ s.stage ≠ .start) ∧
    (input.size ≤ pos ∨ free = 0 ∨ s.hostage = true ∧ out = .empty)
  fresh : 0 < o.out.size → s'.idle = 0
  le_pos : pos ≤ o.pos
  pos_le : o.pos ≤ input.size
  out_le : o.out.size ≤ free
  ends : o.result = .ok 0 ∧ rest = slice input pos o.pos ∧ out = o.out ∧ s'.stage = .start ∧ s'.outSize < Frame.unknownSize ∨
    ∃ hint rest' out', o.result = .ok hint ∧ hint ≠ 0 ∧ rest = slice input pos o.pos ++ rest' ∧ out = o.out ++ out' ∧
      Owes msg frame s' rest' out' ∧ (o.out.size = free ∧ 0 < out'.size ∨ o.pos = input.size ∧ s'.stage ≠ .flush) ∧
      -- no more comes of this input than what waits, and a block for each byte
      o.out.size + min out'.size (s'.waits + (input.size - o.pos) * Block.maxSize) ≤ s.waits + (input.size - pos) * Block.maxSize

theorem Stops.congr (h : Stops msg s c rest out) (idle : Nat) : Stops msg { s with idle } c rest out := by
  cases h with
  | full hstage hfree hlive => exact .full hstage hfree (hlive.congr idle s.hostage)
  | dry hstage hexp hpos hlive => exact .dry hstage hexp hpos (hlive.congr idle s.hostage)
  | past hstage hexp hend hout hlive => exact .past hstage hexp hend hout fun hh => (hlive hh).congr idle s.hostage

theorem run_of_done
    (h : s.steps ⟨input, pos, pos, .empty, free⟩ (2 * (input.size - pos) + 16) = .done s' c)
    (hgo : s'.idle + 1 < maxIdle ∨ (c.pos = c.start → c.out.size = 0 → c.free ≠ 0 ∧ c.pos ≠ c.input.size)) :
    ∃ idle, (idle = 0 ∨ idle = s'.idle + 1 ∧ c.pos = c.start ∧ c.out.size = 0) ∧
      ∀ s'' pos' hint, Stream.hintAfter { s' with idle } c = (s'', pos', hint) →
        s.run input pos free = (s'', { pos := pos', out := c.out, result := .ok hint }) := by
  obtain ⟨idle, heq, hidle⟩ := checkProgress_spec hgo
  refine ⟨idle, hidle, fun s'' pos' hint hhint => ?_⟩
  simp_all [Stream.run]

theorem handled_of_done (hpos : pos ≤ input.size) (hwaits : s₀.outEnd - s₀.outStart ≤ s.waits)
    (hgo : s.idle + 1 < maxIdle ∨ pos < input.size ∧ 0 < free) (hfixed : s₀.fixed = s.fixed) (hidle : s₀.idle = s.idle)
    (hhostage : s₀.hostage = false)
    (hsteps : s.steps ⟨input, pos, pos, .empty, free⟩ (2 * (input.size - pos) + 16) = .done s' c')
    (hgoes : Goes s₀ ⟨input, pos, pos, .empty, free⟩ rest out s' c' rest' out') (hstops : Stops msg s' c' rest' out')
    (hover : s'.expected = 0 → pos < c'.pos) :
    ∃ s'' o, s.run input pos free = (s'', o) ∧ Handled msg frame s rest out input pos free s'' o := by
  obtain ⟨⟨x, y, hm, rfl, rfl⟩, hsettings, -, hdue⟩ := hgoes
  simp only [settings, Prod.mk.injEq] at hsettings
  obtain ⟨h1, h2, h3, h4, h5⟩ := hsettings
  obtain ⟨hx, hle⟩ := hm.taken hpos
  have hin : c'.input.size = input.size := congrArg ByteArray.size hm.input
  have hstart := hm.start
  have hp := hm.pos
  have hout : c'.out = y := hm.out.trans empty_append
  have hysize := congrArg ByteArray.size hout
  have hfree := hm.free
  dsimp only at hstart hp hfree hle hx
  obtain ⟨idle, hcount, hrun⟩ := run_of_done hsteps (by
    omega)
  unfold due at hdue
  rw [hin, hout, size_empty] at hdue
  obtain ⟨s'', pos', hint, hhint, hfixed', hidle', hexp', hwaits', hends⟩ :=
    hintAfter_spec (s := { s' with idle }) (h5.trans hhostage) (hstops.congr idle)
  have hcount' : s''.idle ≤ s.idle ∨ s''.idle = s.idle + 1 ∧ c'.pos = pos ∧ (input.size ≤ pos ∨ free = 0) := by
    rw [show s''.idle = idle from hidle']
    rcases hcount with rfl | ⟨rfl, hstill, hy⟩
    · exact .inl (Nat.zero_le _)
    · refine .inr ⟨by rw [h4, hidle], hstill.trans hstart, ?_⟩
      cases hstops with
      | full _ hfull => exact .inr (by omega)
      | dry _ _ hdry => exact .inl (by omega)
      | past _ hexp =>
        omega
  have hfresh : 0 < c'.out.size → s''.idle = 0 := fun hgave => by
    have : s''.idle = idle := hidle'
    omega
  have hfixed'' : s''.fixed = s.fixed := (hfixed'.trans (show s'.fixed = s₀.fixed by simp only [fixed, h1, h2, h3])).trans hfixed
  refine ⟨s'', _, hrun s'' pos' hint hhint, ?_⟩
  cases hends with
  | past hstage hsize =>
    refine ⟨hfixed'', hcount'.imp id fun h => ⟨h.1, .inl h.2.1, h.2.2.imp id .inl⟩, hfresh, by dsimp only; omega, hle, by dsimp only; omega,
      .inl ⟨rfl, ?_, ?_, hstage, hsize⟩⟩
    · rw [append_empty]
      exact hx
    grind [append_empty]
  | next hhint0 howes hwhy =>
    refine ⟨hfixed'', hcount'.imp id fun h => ⟨h.1, .inl h.2.1, h.2.2.imp id .inl⟩, hfresh, by dsimp only; omega, hle, by dsimp only; omega,
      .inr ⟨hint, rest', out', rfl, hhint0, ?_, ?_, howes, ?_, ?_⟩⟩
    · rw [← hx]
    · rw [hout]
    · grind
    · have := s''.waits_le
      dsimp only at hwaits' hdue ⊢
      omega
  | giveBack hexp hfull hwait hsize howes =>
    have hmoved := hover (hexp'.symm.trans hexp)
    refine ⟨hfixed'', hcount'.imp id fun h => absurd h.2.1 (by omega), hfresh, by dsimp only; omega, by dsimp only; omega, by dsimp only; omega,
      .inr ⟨1, slice input (c'.pos - 1) c'.pos, out', rfl, by decide, ?_, ?_, howes _ ?_, .inl ⟨by dsimp only; omega, hwait⟩, ?_⟩⟩
    · grind [append_empty, slice_append_slice]
    · rw [hout]
    · grind [size_slice_of_le]
    · dsimp only at hwaits' hdue ⊢
      omega

/-! ### One call -/

/-- The decoder as it starts to load a header. -/
def opened (s : Stream) : Stream :=
  { s with stage := .header, headerBytes := .empty, loaded := .empty, outStart := 0, outEnd := 0, hostage := false }

theorem steps_start (h : s.stage = .start) (c : Call) (fuel : Nat) : s.steps c (fuel + 1) = s.opened.steps c (fuel + 1) := by
  rw [Stream.steps, Stream.steps]
  have : s.step c = s.opened.step c := by
    unfold Stream.step
    rw [h]
    rfl
  rw [this]

theorem Opens.run (s₀ : Stream) (hf : msg.Framed frame)
    (h : Opens msg frame s₀ ⟨input, pos, pos, .empty, free⟩ rest) (hlt : s₀.headerBytes.size < msg.plan.header.size)
    (hgo : s.idle + 1 < maxIdle ∨ pos < input.size ∧ 0 < free) (hfixed : s₀.fixed = s.fixed) (hidle : s₀.idle = s.idle)
    (hbegin : Relayed msg frame ∨ msg.plan.header.size ≤ input.size - pos)
    (hsteps : s.steps ⟨input, pos, pos, .empty, free⟩ (2 * (input.size - pos) + 16) =
      s₀.steps ⟨input, pos, pos, .empty, free⟩ (2 * (input.size - pos) + 16)) :
    ∃ s' o, s.run input pos free = (s', o) ∧ Handled msg frame s rest msg.data input pos free s' o := by
  have hpos := h.pos_le
  have hsize := congrArg ByteArray.size h.bytes
  rw [size_append] at hsize
  have hheader := hf.header_le
  obtain ⟨s', c', rest', out', hgoes, hcases⟩ :=
    h.steps hf (2 * (input.size - pos) + 16) s₀ ⟨input, pos, pos, .empty, free⟩ rest (by dsimp only; omega)
  obtain ⟨x, y, hm, hx, hy⟩ := hgoes.moves
  obtain ⟨htaken, hle⟩ := hm.taken hpos
  have hp := hm.pos
  dsimp only at hle hp htaken
  rcases hcases with ⟨n, heq, hn, hend, hshort, rfl, hopens⟩ | ⟨heq, hover, hstops⟩
  · have hin : c'.input.size = input.size := congrArg ByteArray.size hm.input
    have hy0 : y = .empty := by
      have := congrArg ByteArray.size hy
      rw [size_append] at this
      exact size_eq_zero_iff.1 (by omega)
    have hout : c'.out = .empty := by rw [hm.out, hy0, append_empty]
    have hsettings := hgoes.settings
    simp only [settings, Prod.mk.injEq] at hsettings
    obtain ⟨h1, h2, h3, h4, h5⟩ := hsettings
    have hbytes := congrArg ByteArray.size hopens.bytes
    rw [hx, size_append] at hsize
    rw [size_append] at hbytes
    refine ⟨s', { pos := c'.pos, out := c'.out, result := .ok n }, ?_, ?_⟩
    · grind [Stream.run]
    · refine ⟨(show s'.fixed = s₀.fixed by simp only [fixed, h1, h2, h3]).trans hfixed, .inl (by rw [h4, hidle]), by simp [hout], by dsimp only; omega, hle,
        by rw [hout]; exact Nat.zero_le _, .inr ⟨n, rest', msg.data, rfl, hn, ?_, ?_, ?_, .inr ⟨by dsimp only; omega, ?_⟩, ?_⟩⟩
      · grind
      · grind
      · refine .header hopens.stage hopens.outStart hopens.outEnd hopens.loaded hopens.hostage hopens.outSize hopens.bytes hshort
          (.inr (hbegin.resolve_right fun hall => ?_))
        omega
      · rw [hopens.stage]
        decide
      · have hall : input.size - c'.pos = 0 := by omega
        have hwaits := s'.waits_le
        rw [hopens.outStart, hopens.outEnd] at hwaits
        dsimp only
        rw [hout, hall, size_empty]
        omega
  · refine handled_of_done hpos (by rw [h.outStart, h.outEnd]; exact Nat.zero_le _) hgo hfixed hidle h.hostage (hsteps.trans heq) hgoes hstops fun h0 => ?_
    by_cases hstage : s'.stage = .start
    · have hrest' : rest' = .empty := by
        cases hstops with
        | full hs => grind
        | dry hs he hd hl => exact (hl.of_expected_zero h0).2
        | past => rfl
      grind [size_empty]
    · exact hover hstage h0

variable (hf : msg.Framed frame)

include hf

/-- A call that finds the frame over and its last byte given back. -/
theorem Live.run_hostage (h : Live msg s .empty out)
    (hhostage : s.hostage = true) (hends : msg.ends = true) (hlast : rest.size = 1) (hpos : pos ≤ input.size)
    (hm : Meets msg.ends (slice input pos input.size) rest) (hgo : s.idle + 1 < maxIdle ∨ pos < input.size ∧ 0 < free) :
    ∃ s' o, s.run input pos free = (s', o) ∧ Handled msg frame s rest out input pos free s' o := by
  have hweight : s.weight ⟨input, pos, pos, .empty, free⟩ < 2 * (input.size - pos) + 16 := by
    unfold weight
    dsimp only
    split <;> omega
  have hwaits : out.size = s.waits := by
    refine (h.size_of_expected_zero ?_).trans (waits_of_ne h.stage_ne.1).symm
    by_contra hexp
    exact absurd (h.rest_pos hends hexp) (lt_irrefl _)
  obtain ⟨s', c', rest', out', heq, hgoes, hstops⟩ := h.steps hf _ s ⟨input, pos, pos, .empty, free⟩ .empty out hpos
    (.inl ⟨hends, _, empty_append.symm⟩) hweight
  obtain ⟨⟨x, y, hmoves, hx, rfl⟩, hsettings, -⟩ := hgoes
  simp only [settings, Prod.mk.injEq] at hsettings
  obtain ⟨h1, h2, h3, h4, h5⟩ := hsettings
  have hx0 := congrArg ByteArray.size hx
  rw [size_append, size_empty] at hx0
  have hrest' : rest' = .empty := size_eq_zero_iff.1 (by omega)
  rw [hrest'] at hstops
  have hin : c'.input.size = input.size := congrArg ByteArray.size hmoves.input
  have hstart := hmoves.start
  have hp := hmoves.pos
  have hout : c'.out = y := hmoves.out.trans empty_append
  have hysize := congrArg ByteArray.size hout
  have hfree := hmoves.free
  dsimp only at hstart hp hfree
  obtain ⟨idle, hcount, hrun⟩ := run_of_done heq (by
    omega)
  obtain ⟨s'', pos', hint, hhint, hfixed', hidle', hends'⟩ :=
    hintAfter_hostage (s := { s' with idle }) (h5.trans hhostage) hends (hstops.congr idle)
  have hfixed'' : s''.fixed = s.fixed := hfixed'.trans (show s'.fixed = s.fixed by simp only [fixed, h1, h2, h3])
  have hcount' : s''.idle ≤ s.idle ∨ s''.idle = s.idle + 1 ∧ (pos' = pos ∨ s.hostage = true ∧ s.stage ≠ .start) ∧
      (input.size ≤ pos ∨ free = 0 ∨ s.hostage = true ∧ y ++ out' = .empty) := by
    rw [show s''.idle = idle from hidle']
    rcases hcount with rfl | ⟨rfl, hstill, hy⟩
    · exact .inl (Nat.zero_le _)
    · refine .inr ⟨by rw [h4], .inr ⟨hhostage, h.stage_ne.1⟩, ?_⟩
      cases hstops with
      | full _ hfull => exact .inr (.inl (by omega))
      | dry _ _ hdry => exact .inl (by omega)
      | past =>
        grind [append_empty, size_eq_zero_iff]
  have hfresh : 0 < c'.out.size → s''.idle = 0 := fun hgave => by
    have : s''.idle = idle := hidle'
    omega
  refine ⟨s'', _, hrun s'' pos' hint hhint, ?_⟩
  rcases hends' with ⟨rfl, rfl, howes, hwhy⟩ | ⟨rfl, rfl, hlt, rfl, hstage, hsize⟩
  · refine ⟨hfixed'', hcount', hfresh, by dsimp only; omega, by dsimp only; omega, by dsimp only; omega,
      .inr ⟨1, rest, out', rfl, by decide, ?_, by rw [hout], howes rest hlast, ?_, ?_⟩⟩
    · grind [slice_of_le, empty_append]
    · grind
    · rw [size_append] at hwaits
      dsimp only
      omega
  · refine ⟨hfixed'', hcount', hfresh, by dsimp only; omega, by dsimp only; omega, by dsimp only; omega, .inl ⟨rfl, ?_, ?_, hstage, hsize⟩⟩
    · -- the byte given back is taken
      have hcut := slice_append_slice (b := input) (show pos ≤ c'.pos + 1 by omega) (show c'.pos + 1 ≤ input.size by omega)
      obtain ⟨rest₂, hrest₂, -⟩ := hm.take hcut.symm fun _ => by
        rw [size_slice_of_le (by omega)]
        omega
      grind [size_slice_of_le, size_eq_zero_iff, append_empty]
    grind [append_empty]

/-- A call takes and gives until the frame is over, the room is full or the input is used up. -/
theorem Owes.run (hs : s.Suits msg) (h : Owes msg frame s rest out)
    (hpos : pos ≤ input.size) (hm : Meets msg.ends (slice input pos input.size) rest)
    (hgo : s.idle + 1 < maxIdle ∨ pos < input.size ∧ 0 < free)
    (hw : s.Admits msg ∨ s.stage = .start ∧ Filled msg frame (slice input pos input.size) free)
    (hbegin : Relayed msg frame ∨ msg.plan.header.size ≤ input.size - pos ∨ s.stage ≠ .start ∧ s.stage ≠ .header) :
    ∃ s' o, s.run input pos free = (s', o) ∧ Handled msg frame s rest out input pos free s' o := by
  cases h with
  | start hstage hout =>
    refine Opens.run s.opened hf ?_ hf.header_pos hgo rfl rfl
      (hbegin.imp id fun h => h.resolve_right fun h => h.1 hstage) (steps_start hstage _ _)
    exact ⟨rfl, hs.congr rfl, hw.imp (fun h => h.congr rfl) fun h => ⟨rfl, h.2⟩, empty_append.symm, Nat.zero_le _, rfl, rfl, rfl, rfl, hout, hpos, hm,
      .empty, frame, empty_append.symm, hm, .inl ⟨rfl, rfl⟩⟩
  | header hstage hstart hend hloaded hhostage hout hbytes hlt hrelay =>
    refine Opens.run s hf ?_ hlt hgo rfl rfl (hbegin.imp id fun h => h.resolve_right fun h => h.2 hstage) rfl
    have hw' : s.Admits msg := hw.resolve_right fun h => absurd (hstage.symm.trans h.1) (by decide)
    refine ⟨hstage, hs, .inl hw', hbytes, le_of_lt hlt, hstart, hend, hloaded, hhostage, hout, hpos, hm, s.headerBytes, rest, hbytes, hm, ?_⟩
    grind [size_eq_zero_iff]
  | inside hhostage hexp hlive =>
    have hweight : s.weight ⟨input, pos, pos, .empty, free⟩ < 2 * (input.size - pos) + 16 := by
      unfold weight
      dsimp only
      split <;> omega
    obtain ⟨s', c', rest', out', heq, hgoes, hstops⟩ := hlive.steps hf _ s ⟨input, pos, pos, .empty, free⟩ rest out hpos hm hweight
    exact handled_of_done hpos (waits_of_ne hlive.stage_ne.1).ge hgo rfl rfl hhostage heq hgoes hstops fun h0 => (hgoes.past h0).resolve_left hexp
  | hostage hhostage hexp hlast hends hlive => exact hlive.run_hostage hf hhostage hends hlast hpos hm hgo

theorem Owes.rest_pos (hends : msg.ends = true) (h : Owes msg frame s rest out) : 0 < rest.size := by
  cases h with
  | start => exact lt_of_lt_of_le hf.header_pos hf.header_le
  | header _ _ _ _ _ _ hbytes hlt =>
    have := hf.header_le
    grind
  | inside _ hexp hlive => exact hlive.rest_pos hends hexp
  | hostage _ _ hlast => omega

/-- A frame that is there in full is decoded by one call, if there is room for its content. -/
theorem run_whole (hs : s.Suits msg) (hends : msg.ends = true) (hstage : s.stage = .start)
    (hout : s.outSize < Frame.unknownSize) (hgo : s.idle + 1 < maxIdle ∨ 0 < free) (hfree : msg.data.size ≤ free)
    (hw : s.Admits msg ∨ msg.header.contentSize.isSome = true) :
    ∃ s', s.run (frame ++ z) 0 free = (s', { pos := frame.size, out := msg.data, result := .ok 0 }) ∧ s'.fixed = s.fixed ∧
      s'.stage = .start ∧ s'.outSize < Frame.unknownSize ∧ s'.idle ≤ s.idle := by
  have hpos : 0 < frame.size := (Owes.start hstage hout).rest_pos hf hends
  have hsize : (frame ++ z).size = frame.size + z.size := size_append
  obtain ⟨s', o, hrun, hh⟩ := Owes.run hf hs (.start hstage hout) (Nat.zero_le _)
    (.inl ⟨hends, z, by rw [slice_all]⟩) (hgo.imp id fun h => ⟨by omega, h⟩) (hw.imp id fun hsome => by
      obtain ⟨n, hn⟩ := Option.isSome_iff_exists.1 hsome
      have hle := (hf.contentSize n hn).2 hends
      exact ⟨hstage, hends, ⟨z, by rw [slice_all]⟩, n, hn, by omega⟩)
    (.inr (.inl (by have := hf.header_le; omega)))
  rcases hh.ends with ⟨hres, hrest, hdata, hst, hsz⟩ | ⟨hint, rest', out', hres, hne, hrest, hdata, howes, hwhy⟩
  · have hlen := congrArg ByteArray.size hrest
    rw [size_slice_of_le hh.pos_le, Nat.sub_zero] at hlen
    refine ⟨s', ?_, hh.fixed, hst, hsz, hh.idle.resolve_right ?_⟩
    · rw [hrun, hdata, hlen]
      cases o
      dsimp only at hres
      rw [hres]
    grind
  · -- the frame is there in full and there is room for all of it
    have hrestpos := howes.rest_pos hf hends
    grind [size_slice_of_le]

end ZstCodec.Decompress.Stream
