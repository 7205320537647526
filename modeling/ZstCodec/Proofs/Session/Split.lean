import ZstCodec.Proofs.Pipe
import ZstCodec.Proofs.Session.Use
import ZstCodec.Session.Script

/-! # A frame and what follows it

A decompression object that is fed a frame in pieces gives its content, and keeps what follows the frame (`object_splits`). The decoder
gives the last byte of a frame back for as long as content waits, so the call that brings this byte goes on until none does. -/

namespace ZstCodec.Decompress

open Pipe Compress

variable {msg : Message} {frame rest out input data : ByteArray} {pos room : Nat}

/-! ### Frames that a decoder takes -/

namespace Stream

variable {s s' : Stream}

/-- A whole frame that the decoder can take, whatever the room. -/
structure Takes (s : Stream) (msg : Message) (frame : ByteArray) : Prop where
  framed : msg.Framed frame
  ends : msg.ends = true
  suits : s.Suits msg
  admits : s.Admits msg

theorem Takes.congr (h : s.Takes msg frame) (hs : s'.fixed = s.fixed) : s'.Takes msg frame :=
  ⟨h.framed, h.ends, h.suits.congr hs, h.admits.congr hs⟩

/-- Once some of a frame has been taken or given out, the decoder is behind the header, unless that may come in pieces. -/
theorem Owes.begun (h : Owes msg frame s rest out) (hlt : rest.size < frame.size ∨ out.size < msg.data.size) :
    Relayed msg frame ∨ s.stage ≠ .start ∧ s.stage ≠ .header := by
  cases h with
  | start => omega
  | header _ _ _ _ _ _ hbytes _ hbegun =>
    refine .inl (hbegun.resolve_left fun h0 => ?_)
    rw [hbytes, h0, empty_append] at hlt
    omega
  | inside _ _ hlive => exact .inr hlive.stage_ne
  | hostage _ _ _ _ hlive => exact .inr hlive.stage_ne

theorem Owes.waits_eq (h : Owes msg frame s rest out) (hs : s.stage ≠ .flush) : s.waits = 0 := by
  by_cases hstart : s.stage = .start
  · exact if_pos hstart
  rw [waits_of_ne hstart]
  cases h with
  | start hstage => exact absurd hstage hstart
  | header _ hs he => rw [hs, he]
  | inside _ _ hlive => rw [hlive.outEnd_eq hs, Nat.sub_self]
  | hostage _ _ _ _ hlive => rw [hlive.outEnd_eq hs, Nat.sub_self]

end Stream

theorem Tells.takes {s : Stream} (told : Option Nat) (h : Tells s.dict s.format told data frame)
    (hw : ∀ header, Frame.read s.format frame = .ok (.frame header) → max header.windowSize (2 ^ Frame.windowLogMin) ≤ s.maxWindow) :
    ∃ msg, s.Takes msg frame ∧ msg.data = data := by
  obtain ⟨msg, hf, hu, hends, hdata, hformat, -⟩ := h
  have hread := hf.read .empty
  rw [append_empty, hformat] at hread
  exact ⟨msg, ⟨hf, hends, ⟨hformat.symm, hu⟩, hw _ hread⟩, hdata⟩

theorem call_gives {σ : Type} {d : Desk Stream σ} (h : d.codec.run input pos room = (s', o)) :
    (call input pos room).Gives d o { d with codec := s' } := by
  change (Except.ok (d.codec.run input pos room).2, ({ d with codec := (d.codec.run input pos room).1 } : Desk Stream σ)) = _
  rw [h]

/-! ### Objects -/

namespace Object

variable {d d' : Desk Stream Object}

/-- An object amid a frame, of which `rest` has still to come and `out` to be given. -/
structure Amid (msg : Message) (frame : ByteArray) (room : Nat) (d : Desk Stream Object) (rest out : ByteArray) : Prop where
  takes : d.codec.Takes msg frame
  owes : Stream.Owes msg frame d.codec rest out
  le : out.size ≤ msg.data.size
  object : d.object = { room := .ok room, acrossFrames := false }

/-- With the input the frame is over, and the object keeps the rest; or all of it is taken, and nothing waits. -/
def Took (msg : Message) (frame : ByteArray) (room : Nat) (left rest out b : ByteArray) (d' : Desk Stream Object) : Prop :=
  (∃ z, left = rest ++ z ∧ out = b ∧ d'.object = ⟨.ok room, false, true, z⟩) ∨
    ∃ rest' out', rest = left ++ rest' ∧ out = b ++ out' ∧ Amid msg frame room d' rest' out' ∧ d'.codec.stage ≠ .flush

theorem Took.after (h : Took msg frame room left rest out b d') (x y : ByteArray) :
    Took msg frame room (x ++ left) (x ++ rest) (y ++ out) (y ++ b) d' := by
  obtain ⟨z, rfl, rfl, hobj⟩ | ⟨rest', out', rfl, rfl, h⟩ := h
  · exact .inl ⟨z, append_assoc.symm, rfl, hobj⟩
  · exact .inr ⟨rest', out', append_assoc.symm, append_assoc.symm, h⟩

theorem Amid.decompressFrom (got : ByteArray) (hroom : 0 < room) (fuel : Nat) (h : Amid msg frame room d rest out) (hpos : pos ≤ input.size)
    (hm : Stream.Meets true (slice input pos input.size) rest) (hgo : d.codec.idle = 0 ∨ pos < input.size)
    (hbegin : Stream.Relayed msg frame ∨ msg.plan.header.size ≤ input.size - pos ∨ d.codec.stage ≠ .start ∧ d.codec.stage ≠ .header)
    (hfuel : min out.size (d.codec.waits + (input.size - pos) * Block.maxSize) < fuel) :
    ∃ b d', (Object.decompressFrom input room pos got fuel).Gives d (got ++ b) d' ∧
      Took msg frame room (slice input pos input.size) rest out b d' := by
  induction fuel generalizing d rest out pos got with
  | zero => exact absurd hfuel (Nat.not_lt_zero _)
  | succ fuel ih =>
    obtain ⟨hk, howes, hle, hobj⟩ := h
    obtain ⟨s', o, hrun, hh⟩ := Stream.Owes.run hk.framed hk.suits howes hpos (hk.ends ▸ hm)
      (hgo.imp (fun h0 => by rw [h0]; decide) fun h => ⟨h, hroom⟩) (.inl hk.admits) hbegin
    have hsplit := slice_append_slice (b := input) hh.le_pos hh.pos_le
    rw [Object.decompressFrom]
    rcases hh.ends with ⟨hres, rfl, rfl, -⟩ | ⟨hint, rest', out', hres, hne, rfl, rfl, howes', hwhy, hdue⟩
    · refine ⟨o.out, { d with codec := s', object := ⟨.ok room, false, true, slice input o.pos input.size⟩ },
        .bind (.object d) (.bind (call_gives hrun) ?_), .inl ⟨_, hsplit.symm, rfl, rfl⟩⟩
      rw [hres, hobj]
      exact .bind (.modifyObject _ _) (.pure _ _)
    · rw [size_append] at hle hfuel
      have hamid : Amid msg frame room { d with codec := s' } rest' out' := ⟨hk.congr hh.fixed, howes', by omega, hobj⟩
      by_cases hend : o.pos = input.size ∧ o.out.size < room
      · have hstage := (hwhy.resolve_left fun h => absurd h.1 (ne_of_lt hend.2)).2
        refine ⟨o.out, { d with codec := s' }, .bind (.object d) (.bind (call_gives hrun) ?_), .inr ⟨rest', out', by rw [hend.1], rfl, hamid, hstage⟩⟩
        rw [hres]
        simp only [if_neg hne, hend.1, hend.2, decide_true, Bool.and_self, if_true]
        exact .pure _ _
      · -- the room is full, and the work goes on
        have hfull : o.out.size = room := by
          have := hh.out_le
          omega
        obtain ⟨rest'', hrest, hm'⟩ := hm.take hsplit.symm fun _ => by rw [size_append]; exact Nat.le_add_right _ _
        obtain rfl := append_left_cancel hrest
        obtain ⟨b, d', hgives, htook⟩ := ih (got ++ o.out) hamid hh.pos_le hm' (.inl (hh.fresh (by omega)))
          ((howes'.begun (.inr (by omega))).imp id .inr) (by dsimp only; omega)
        refine ⟨o.out ++ b, d', .bind (.object d) (.bind (call_gives hrun) ?_), hsplit ▸ htook.after _ _⟩
        rw [hres]
        simp only [if_neg hne]
        rw [if_neg (by simpa using hend), ← append_assoc]
        exact hgives

theorem Amid.decompress (hroom : 0 < room) (h : Amid msg frame room d rest out) (hstage : d.codec.stage ≠ .flush)
    (hm : Stream.Meets true c rest) (hbegin : rest.size < frame.size ∨ msg.plan.header.size ≤ c.size) :
    ∃ b d', (Object.decompress (.ok c)).Gives d b d' ∧ Took msg frame room c rest out b d' := by
  have hopen : ¬ d.object.finished = true := by simp [h.object]
  have hroom' : d.object.room = .ok room := by rw [h.object]
  by_cases h0 : c.size = 0
  · obtain rfl := size_eq_zero_iff.1 h0
    refine ⟨.empty, d, .bind (.object d) ?_, .inr ⟨rest, out, empty_append.symm, empty_append.symm, h, hstage⟩⟩
    rw [if_neg hopen]
    exact .bind (.ofExcept _ d) (.pure _ _)
  · have hfuel : min out.size (d.codec.waits + (c.size - 0) * Block.maxSize) < effort c.size := by
      have : 0 < 64 * Block.maxSize := by decide
      rw [h.owes.waits_eq hstage, Nat.sub_zero, effort, add_mul]
      omega
    obtain ⟨b, d', hgives, htook⟩ := h.decompressFrom .empty hroom _ (Nat.zero_le _) (by rwa [slice_all]) (.inr (by omega))
      (hbegin.elim (fun hlt => (h.owes.begun (.inl hlt)).imp id .inr) fun hle => .inr (.inl hle)) hfuel
    rw [empty_append] at hgives
    rw [slice_all] at htook
    refine ⟨b, d', .bind (.object d) ?_, htook⟩
    rw [if_neg hopen]
    refine .bind (.ofExcept c d) ?_
    rw [if_neg h0]
    refine .bind (.object d) ?_
    rw [hroom']
    exact .bind (.ofExcept room d) hgives

theorem Amid.feed (hroom : 0 < room) (chunks : List ByteArray) (h : Amid msg frame room d rest out)
    (hstage : d.codec.stage ≠ .flush) (hjoin : joined chunks ++ rest' = rest) (hpos : 0 < rest'.size)
    (hbegin : rest.size < frame.size ∨ rest = frame ∧ ∀ c ∈ chunks.head?, msg.plan.header.size ≤ c.size) :
    ∃ pieces d' out', (chunks.mapM fun c => Object.decompress (.ok c)).Gives d pieces d' ∧ out = joined pieces ++ out' ∧
      Amid msg frame room d' rest' out' ∧ d'.codec.stage ≠ .flush := by
  induction chunks generalizing d rest out with
  | nil =>
    rw [joined_nil, empty_append] at hjoin
    exact ⟨[], d, out, .pure _ _, empty_append.symm, hjoin ▸ h, hstage⟩
  | cons c cs ih =>
    rw [joined_cons, append_assoc] at hjoin
    have hsize := congrArg ByteArray.size hjoin
    rw [size_append, size_append] at hsize
    obtain ⟨b, d₁, hgives, ⟨z, hz, -⟩ | ⟨rest₁, out₁, hrest₁, rfl, h₁, hstage₁⟩⟩ := h.decompress hroom hstage (.inr ⟨_, hjoin.symm⟩)
      (hbegin.imp id fun h => h.2 c rfl)
    · -- the frame is not over yet
      rw [hz, size_append] at hsize
      omega
    · obtain rfl := append_left_cancel (hjoin.trans hrest₁)
      have hlt : (joined cs ++ rest').size < frame.size := by
        rw [size_append]
        rcases hbegin with hlt | ⟨rfl, hhead⟩
        · omega
        · have := h.takes.framed.header_pos
          have := hhead c rfl
          omega
      obtain ⟨pieces, d', out', hall, rfl, h', hstage'⟩ := ih h₁ hstage₁ rfl (.inl hlt)
      refine ⟨b :: pieces, d', out', ?_, append_assoc.symm, h', hstage'⟩
      rw [List.mapM_cons]
      exact .bind hgives (.bind hall (.pure _ _))

/-- Once the frame is over, an object refuses all input and stays as it is. -/
theorem decompress_finished (h : d.object.finished = true) (c : Except Failure ByteArray) :
    (Object.decompress c).run.run d = (.error .objectReused, d) := by
  obtain ⟨codec, ⟨room, acrossFrames, finished, unused⟩, source, sink, log⟩ := d
  cases h
  rfl

end Object

end ZstCodec.Decompress

namespace ZstCodec.Session

open Compress (Context)
open Decompress (Stream Object)
open Pipe

variable {dict : Option HeldDictionary} {data frame : ByteArray} {s : Stream}

/-- A frame in the standard format, with a window that is not too large, that a compressor with the dictionary makes. -/
def FrameOf (dict : Option HeldDictionary) (data frame : ByteArray) : Prop :=
  ∃ x₀ x, CompressorMade dict x₀ ∧ x₀.settings.format = .marked ∧ x₀.Used x ∧ Makes x data frame ∧ WindowWithin frame (2 ^ 27) ∧
    data.size < Frame.unknownSize

/-- A decompressor for such frames after some use. -/
def DecompressorUsed (dict : Option HeldDictionary) (s : Stream) : Prop :=
  ∃ a s₀, decompressorOf a dict = .ok s₀ ∧ s₀.format = .marked ∧ 2 ^ 27 ≤ s₀.maxWindow ∧ s₀.Used s

theorem FrameOf.takes (h : FrameOf dict data frame) :
    (∃ s₀, decompressorOf [] dict = .ok s₀) ∧
      ∀ s, DecompressorUsed dict s → s.reset.Free ∧ s.reset.format = .marked ∧ ∃ msg, s.reset.Takes msg frame ∧ msg.data = data := by
  obtain ⟨x₀, x, hmade, hformat, hused, hf, hwindow, hsize⟩ := h
  obtain ⟨r, told, hr, htells⟩ := hf.tells hmade hused hsize
  refine ⟨hr.decompressorOf, fun s ⟨a, s₀, hs₀, hmarked, hmax, hs⟩ => ?_⟩
  obtain ⟨hfree, hmarked', hmaxWindow, rfl⟩ := hr.used hs₀ hmarked hs
  refine ⟨hfree, hmarked', Decompress.Tells.takes told ?_ ?_⟩
  · rwa [hmarked', ← hformat]
  · rw [hmarked', hmaxWindow]
    exact hwindow.admits hmax

theorem frameOf_three : FrameOf none ⟨#[1, 2, 3]⟩ ⟨#[0x28, 0xb5, 0x2f, 0xfd, 0x20, 3, 0x19, 0, 0, 1, 2, 3]⟩ :=
  ⟨_, _, .plain, rfl, .fresh, .atOnce (ok_of_toOption (by decide +kernel)), fun _ h => by cases h; decide, by decide⟩

/-- What an object shows: whether the frame is over, and what follows it. No input is left to take. -/
def Shows (o : Object) (ended : Bool) (unused : ByteArray) : Prop :=
  ∀ owner w, (property (.decompressObject owner o) "eof").run.run w = (.ok (.bool ended), w) ∧
    (property (.decompressObject owner o) "unused_data").run.run w = (.ok (.ofBytes unused), w) ∧
    (property (.decompressObject owner o) "unconsumed_tail").run.run w = (.ok (.ofBytes .empty), w)

theorem shows_self (o : Object) : Shows o o.finished o.unused := fun _ _ => ⟨rfl, rfl, rfl⟩

/-- However a frame and what follows it are cut behind the header, a decompression object takes all input until the frame is over. The call
that brings its end gives the last of the content and leaves what follows unused. From then on the object refuses all input. -/
theorem object_splits (hf : FrameOf dict data frame) :
    (∃ s₀, decompressorOf [] dict = .ok s₀) ∧
      ∀ s, DecompressorUsed dict s → ∀ room, 1 ≤ room → ∀ chunks rest, joined chunks ++ rest = frame → 0 < rest.size →
        (∀ c ∈ chunks.head?, ∃ h, Frame.read .marked c = .ok (.frame h)) → ∀ source sink log,
          ∃ pieces d, (chunks.mapM fun c => Object.decompress (.ok c)).Gives
              ⟨s.reset, { room := .ok room, acrossFrames := false }, source, sink, log⟩ pieces d ∧
            Shows d.object false .empty ∧
            ∀ t, ∃ piece d', (Object.decompress (.ok (rest ++ t))).Gives d piece d' ∧ joined pieces ++ piece = data ∧ Shows d'.object true t ∧
              ∀ later, (Object.decompress later).run.run d' = (.error .objectReused, d') := by
  refine hf.takes.imp_right fun htakes s hs room hroom chunks rest hcut hrest hhead source sink log => ?_
  obtain ⟨hfree, hmarked, msg, hk, rfl⟩ := htakes s hs
  have hstart : Object.Amid msg frame room ⟨s.reset, { room := .ok room, acrossFrames := false }, source, sink, log⟩ frame msg.data :=
    ⟨hk, .start hfree.stage hfree.outSize, le_rfl, rfl⟩
  have hheader (c : ByteArray) (hc : c ∈ chunks.head?) : msg.plan.header.size ≤ c.size := by
    obtain ⟨h, hread⟩ := hhead c hc
    obtain ⟨cs, rfl⟩ := List.head?_eq_some_iff.1 hc
    rw [joined_cons, append_assoc] at hcut
    by_contra hshort
    rw [← hmarked, Stream.Opens.read_front hk.framed hk.suits hcut.symm (Nat.lt_of_not_le hshort)] at hread
    cases hread
  obtain ⟨pieces, d, out, hgives, hdata, hamid, hstage⟩ := hstart.feed hroom chunks (by rw [hfree.stage]; decide) hcut hrest (.inr ⟨rfl, hheader⟩)
  refine ⟨pieces, d, hgives, hamid.object ▸ shows_self _, fun t => ?_⟩
  have hsize := congrArg ByteArray.size hcut
  rw [size_append] at hsize
  obtain ⟨piece, d', hgives', ⟨z, hz, hout, hobj⟩ | ⟨rest', out', hrest', -, hamid', -⟩⟩ := hamid.decompress hroom hstage (.inl ⟨rfl, t, rfl⟩) (by
    have := hk.framed.header_le
    rw [size_append]
    omega)
  · obtain rfl := append_left_cancel hz
    exact ⟨piece, d', hgives', hout ▸ hdata.symm, hobj ▸ shows_self _, Object.decompress_finished (by rw [hobj])⟩
  · have hpos := hamid'.owes.rest_pos hk.framed hk.ends
    have := congrArg ByteArray.size hrest'
    rw [size_append, size_append] at this
    omega

theorem object_splits_three : ∃ pieces d piece d',
    ([⟨#[0x28, 0xb5, 0x2f, 0xfd, 0x20, 3]⟩, ⟨#[0x19, 0, 0, 1]⟩].mapM fun c => Object.decompress (.ok c)).Gives
        ⟨({} : Stream).reset, { room := .ok 1, acrossFrames := false }, default, {}, #[]⟩ pieces d ∧
      Shows d.object false .empty ∧ (Object.decompress (.ok ⟨#[2, 3, 7]⟩)).Gives d piece d' ∧
      joined pieces ++ piece = ⟨#[1, 2, 3]⟩ ∧ Shows d'.object true ⟨#[7]⟩ := by
  obtain ⟨pieces, d, hgives, hshows, hends⟩ := (object_splits frameOf_three).2 {} ⟨[], {}, rfl, rfl, by decide, .fresh⟩ 1 le_rfl
    [⟨#[0x28, 0xb5, 0x2f, 0xfd, 0x20, 3]⟩, ⟨#[0x19, 0, 0, 1]⟩] ⟨#[2, 3]⟩ (by decide) (by decide)
    (fun c hc => by cases hc; exact ⟨_, rfl⟩) default {} #[]
  obtain ⟨piece, d', hgives', hdata, hover, -⟩ := hends ⟨#[7]⟩
  exact ⟨pieces, d, piece, d', hgives, hshows, hgives', hdata, hover⟩

end ZstCodec.Session
