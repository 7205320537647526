import ZstCodec.Proofs.Decompress.Message
import ZstCodec.Decompress.Frame

/-! # Whole frames decoded

The frame of a message is decoded to its data, by a reader that understands it and has room (`decodeFrame_framed`), and
its length is found without decoding it (`frameSize_framed`). -/

namespace ZstCodec.Compress

open Block

theorem Blocks.headerSize_le
    (h : Blocks y b true stop false i c r bytes) : headerSize ≤ bytes.size := by
  cases h with
  | @cons _ _ _ _ _ _ _ _ head =>
    simp_all [Header.size_write]

end ZstCodec.Compress

namespace ZstCodec.Decompress

open Match Compress
open Block (Coding Memory EndTest Header headerSize maxSize RoomFor)

variable {y : Layout} {b history : ByteArray} {window i j : Nat} {c c' : Coding} {r r' : Reps} {m : Memory}

variable {bytes x z : ByteArray} {dict : Dictionary} {capacity stop : Nat}

/-! ### One block -/

theorem decodeBlock_body (h : Ready b i c r m history)
    (hbody : Body b window i j c r head.kind head.size body c' r') (hallows : y.Allows j window) (hlog : y.windowLog ≤ 31) (hij : i ≤ j)
    (hj : j ≤ b.size) (hn : j - i ≤ maxSize) (hroom : RoomFor room (j - i)) (test : EndTest) (before behind : ByteArray) :
    ∃ m', decodeBlock (before ++ (body ++ behind)) before.size head room test m 0 history = .ok (history ++ slice b i j, m') ∧
      Ready b j c' r' m' (history ++ slice b i j) := by
  have hslice : slice (before ++ (body ++ behind)) before.size (before.size + body.size) = body := by
    rw [← append_assoc, slice_middle]
  have hcap := hroom.capacity
  obtain ⟨last, kind, size⟩ := head
  dsimp only at hbody
  unfold decodeBlock
  cases hbody with
  | stored =>
    rw [size_slice_of_le hj] at hslice
    dsimp only
    rw [if_neg (by omega), hslice]
    exact ⟨m, rfl, h.plain hij hj⟩
  | run hlt hrun =>
    have hbyte : byteAt (before ++ (ByteArray.empty.push (byteAt b i) ++ behind)) before.size = byteAt b i := by
      have := byteAt_append_right (a := before) (b := ByteArray.empty.push (byteAt b i) ++ behind) 0
      rw [add_zero] at this
      rw [this, byteAt_append_left (by simp)]
      exact byteAt_push_self _
    dsimp only
    rw [if_neg (by omega), hbyte, pushMany_eq_append, ← slice_of_isRun hj hrun]
    exact ⟨m, rfl, h.plain hij hj⟩
  | coded hrest hex hw =>
    rw [hslice]
    exact h.decode test hallows hlog hrest hj hn hij hex hw hroom fun _ _ _ _ hw => h.reach hw

/-! ### All blocks -/

theorem decodeBlocks_blocks (h : Blocks y b true stop false i c r bytes)
    (hlog : y.windowLog ≤ 31) (hstop : stop ≤ b.size) (hsize : y.blockSize ≤ maxSize)
    (hmax : ∀ i' k, i ≤ i' → k ≤ stop → k ≤ i' + y.blockSize → k - i' ≤ blockMax) :
    ∀ (m : Memory) (history before behind : ByteArray) (test : EndTest) (limit fuel : Nat), Ready b i c r m history → bytes.size < fuel →
      stop - i ≤ limit - history.size →
      decodeBlocks (before ++ (bytes ++ behind)) blockMax limit test before.size m history fuel =
        .ok (history ++ slice b i stop, before.size + bytes.size) := by
  -- the index that says whether the last block has been seen is fixed, so it has to be let go for the induction
  generalize hover : false = past at h
  induction h with
  | nil c r => cases hover
  | @cons i k window c c' c'' r r' head body rest hik hk hblock hallows hbody hnext hrest ih =>
    intro m history before behind test limit fuel hready hfuel hlimit
    have hshort := hbody.bodySize (le_trans hk hstop)
    have hmaxSize : maxSize = 131072 := rfl
    have hhead := head.size_write
    have hthree : headerSize = 3 := rfl
    obtain ⟨fuel, rfl⟩ : ∃ n, fuel = n + 1 := ⟨fuel - 1, by omega⟩
    simp only [size_append] at hfuel ⊢
    have hinput : before ++ (Header.write .empty head ++ (body ++ rest) ++ behind) =
        before ++ (Header.write .empty head ++ (body ++ (rest ++ behind))) := by
      simp only [append_assoc]
    have hassoc : before ++ (Header.write .empty head ++ (body ++ (rest ++ behind))) =
        before ++ Header.write .empty head ++ (body ++ (rest ++ behind)) := by
      simp only [append_assoc]
    have hplace : before.size + headerSize = (before ++ Header.write .empty head).size := by
      rw [size_append, hhead]
    have hroom : RoomFor { streaming := false, capacity := limit - history.size, blockMax } (k - i) :=
      ⟨hmax i k (le_refl i) hk hblock, by dsimp only; omega⟩
    obtain ⟨m', hdec, hready'⟩ := decodeBlock_body hready hbody hallows hlog hik (le_trans hk hstop) (by omega) hroom test
      (before ++ Header.write .empty head) (rest ++ behind)
    have hnew : (history ++ slice b i k).size = history.size + (k - i) := by
      rw [size_append, size_slice_of_le (le_trans hk hstop)]
    rw [decodeBlocks, hinput, Header.read_write (by omega)]
    simp only [bind, Except.bind]
    rw [hassoc, hplace, hshort.1, if_neg (by simp only [size_append]; omega), hdec]
    dsimp only
    have hready'' : Ready b k c'' r' m' (history ++ slice b i k) := by
      rcases hnext with rfl | rfl
      · exact hready'
      · exact hready'.forget
    rcases hlast : head.last with _ | _
    · have hgo := ih (fun i' k' hi' => hmax i' k' (le_trans hik hi')) hlast.symm m' (history ++ slice b i k)
        (before ++ Header.write .empty head ++ body) behind (if head.kind = .compressed then .after else test) limit fuel hready'' (by omega)
        (by omega)
      have hbehind : before ++ Header.write .empty head ++ (body ++ (rest ++ behind)) =
          before ++ Header.write .empty head ++ body ++ (rest ++ behind) := append_assoc.symm
      rw [if_neg (by decide), hbehind, ← size_append, hgo, append_assoc, slice_append_slice hik hrest.le]
      simp only [size_append, add_assoc]
    · rw [hlast] at hrest
      obtain ⟨rfl, rfl, -⟩ := hrest.eq_of_over
      rw [if_pos rfl, size_append, hhead]
      simp only [pure, Except.pure, add_assoc]
      rfl

theorem skipBlocks_cons (hbody : head.bodySize = body.size) (hsize : head.size < 2 ^ 21)
    (before rest : ByteArray) (fuel : Nat) :
    skipBlocks (before ++ (Header.write .empty head ++ (body ++ rest))) before.size (fuel + 1) =
      if head.last then .ok (before ++ Header.write .empty head ++ body).size
      else skipBlocks (before ++ Header.write .empty head ++ body ++ rest) (before ++ Header.write .empty head ++ body).size fuel := by
  have hassoc : before ++ (Header.write .empty head ++ (body ++ rest)) = before ++ Header.write .empty head ++ body ++ rest := by
    simp only [append_assoc]
  have hplace : before.size + headerSize + body.size = (before ++ Header.write .empty head ++ body).size := by
    rw [size_append, size_append, head.size_write]
  rw [skipBlocks, Header.read_write hsize]
  simp only [bind, Except.bind]
  rw [hbody, hassoc, hplace, if_neg (by rw [size_append]; omega)]
  rfl

/-- The place behind the blocks of a frame is found. -/
theorem skipBlocks_blocks (h : Blocks y b true stop false i c r bytes) (hstop : stop ≤ b.size)
    (hsize : y.blockSize ≤ maxSize) :
    ∀ (before behind : ByteArray) (fuel : Nat), bytes.size < fuel →
      skipBlocks (before ++ (bytes ++ behind)) before.size fuel = .ok (before.size + bytes.size) := by
  generalize hover : false = past at h
  induction h with
  | nil c r => cases hover
  | @cons i k window c c' c'' r r' head body rest hik hk hblock hallows hbody hnext hrest ih =>
    intro before behind fuel hfuel
    have hshort := hbody.bodySize (le_trans hk hstop)
    have hmaxSize : maxSize = 131072 := rfl
    have hhead : (Header.write .empty head).size = 3 := head.size_write
    obtain ⟨fuel, rfl⟩ : ∃ n, fuel = n + 1 := ⟨fuel - 1, by omega⟩
    rw [append_assoc, append_assoc, skipBlocks_cons hshort.1 (by omega)]
    rcases hlast : head.last with _ | _
    · grind
    · rw [hlast] at hrest
      obtain ⟨rfl, -, -⟩ := hrest.eq_of_over
      rw [if_pos rfl, append_empty, append_assoc, size_append]

/-- Where bytes are missing, no place is found. -/
theorem skipBlocks_cut (h : Blocks y b ends stop false i c r bytes) (hx : bytes = x ++ z)
    (hz : 0 < z.size ∨ ends = false) (hstop : stop ≤ b.size) (hsize : y.blockSize ≤ maxSize) :
    ∀ (before : ByteArray) (fuel : Nat), ∃ e, skipBlocks (before ++ x) before.size fuel = .error e := by
  generalize hover : false = past at h
  induction h generalizing x with
  | nil c r =>
    intro before fuel
    have hsum := congrArg ByteArray.size hx
    rw [size_append, size_empty] at hsum
    have hthree : headerSize = 3 := rfl
    cases fuel with
    | zero => exact ⟨_, rfl⟩
    | succ fuel =>
      rw [skipBlocks, Header.read, if_pos (by rw [size_append]; omega)]
      exact ⟨_, rfl⟩
  | @cons i k window c c' c'' r r' head body rest hik hk hblock hallows hbody hnext hrest ih =>
    intro before fuel
    have hshort := hbody.bodySize (le_trans hk hstop)
    have hmaxSize : maxSize = 131072 := rfl
    have hhead := head.size_write
    cases fuel with
    | zero => exact ⟨_, rfl⟩
    | succ fuel =>
      rcases append_eq_append hx with ⟨x', rfl, htail⟩ | ⟨w, hw, hcut, -⟩
      · rcases append_eq_append htail with ⟨x'', rfl, htail'⟩ | ⟨w, hw, hcut, -⟩
        · rw [skipBlocks_cons hshort.1 (by omega)]
          rcases hlast : head.last with _ | _
          · exact ih htail' hlast.symm _ fuel
          · rw [hlast] at hrest
            obtain ⟨rfl, -, hends⟩ := hrest.eq_of_over
            grind [size_empty]
        · have hsum := congrArg ByteArray.size hcut
          rw [size_append] at hsum
          rw [skipBlocks, Header.read_write (by omega)]
          simp only [bind, Except.bind]
          rw [hshort.1, if_pos (by simp only [size_append]; omega)]
          exact ⟨_, rfl⟩
      · have hsum := congrArg ByteArray.size hcut
        rw [size_append] at hsum
        rw [skipBlocks, Header.read, if_pos (by rw [size_append]; omega)]
        exact ⟨_, rfl⟩

/-! ### Frames -/

variable {msg : Message} {frame : ByteArray}

theorem size_closing (hends : msg.ends = true) : msg.closing.size = if msg.header.checksum then 4 else 0 := by
  unfold Message.closing Writer.closing
  rw [if_pos hends, show msg.header.checksum = msg.plan.checksum from rfl]
  split
  · rfl
  · rfl

variable (h : msg.Framed frame)

include h

theorem le32_closing (hends : msg.ends = true) (hc : msg.header.checksum = true) (before behind : ByteArray) :
    le32 (before ++ (msg.closing ++ behind)) before.size = contentChecksum msg.data := by
  have hread := le32_append_right before (msg.closing ++ behind) 0
  rw [add_zero] at hread
  rw [hread, Message.closing, if_pos hends, Writer.closing, if_pos (show msg.plan.checksum = true from hc),
    XxHash64.range_eq_hash h.origin_le le_rfl, contentChecksum]
  exact Frame.le32_putLe (Nat.mod_lt _ (by decide)) _

theorem decodeFrame_framed (hends : msg.ends = true)
    (hu : msg.Understood dict) (hcap : msg.data.size ≤ capacity) (test : EndTest) (behind : ByteArray) :
    decodeFrame msg.plan.format (frame ++ behind) capacity dict test = .ok (msg.data, frame.size) := by
  have hdata := msg.size_data
  obtain ⟨bytes, rfl, hblocks⟩ := h.blocks
  rw [hends] at hblocks
  have hleast : msg.plan.format.leastHeader ≤ msg.plan.header.size := Frame.Description.leastHeader_le h.fits
  have hbytes := hblocks.headerSize_le
  have hinput : msg.plan.header ++ (bytes ++ msg.closing) ++ behind = msg.plan.header ++ (bytes ++ (msg.closing ++ behind)) := by
    simp only [append_assoc]
  have hsize : (msg.plan.header ++ (bytes ++ (msg.closing ++ behind))).size =
      msg.plan.header.size + (bytes.size + (msg.closing.size + behind.size)) := by simp only [size_append]
  have hfront : slice (msg.plan.header ++ (bytes ++ (msg.closing ++ behind))) 0 msg.plan.header.size = msg.plan.header := by
    rw [slice_append_of_le le_rfl, slice_all]
  have hlength : Frame.headerSize msg.plan.format (msg.plan.header ++ (bytes ++ (msg.closing ++ behind))) = .ok msg.plan.header.size :=
    Frame.Description.headerSize_write _ h.fits
  have hheader : Frame.read msg.plan.format msg.plan.header = .ok (.frame msg.header) := by
    have := Frame.Description.read_write .empty h.fits
    rwa [append_empty] at this
  have hdecode := decodeBlocks_blocks hblocks h.windowLog_le le_rfl h.blockSize_le (fun _ _ => h.le_blockMax) dict.memory
    dict.content msg.plan.header (msg.closing ++ behind) test (dict.content.size + capacity)
    ((msg.plan.header ++ (bytes ++ (msg.closing ++ behind))).size + 1) hu.ready (by omega) (by omega)
  have hcontent : slice (dict.content ++ slice msg.content msg.layout.origin msg.content.size) dict.content.size
      (dict.content ++ slice msg.content msg.layout.origin msg.content.size).size = msg.data := slice_append_right _ _
  unfold decodeFrame
  rw [hinput]
  simp only [bind, Except.bind]
  rw [if_neg (by omega), hlength]
  dsimp only
  rw [if_neg (by omega), hfront, hheader]
  dsimp only [pure, Except.pure]
  rw [if_neg (show ¬ (msg.header.dictId ≠ 0 ∧ msg.header.dictId ≠ dict.id) from fun hh => hu.named.elim hh.1 hh.2), hdecode]
  dsimp only
  have hclosing := size_closing hends
  have hn (n : Nat) (hn : msg.header.contentSize = some n) : ¬ msg.data.size ≠ n := fun hne => hne ((h.contentSize n hn).2 hends).symm
  rcases hcheck : msg.header.checksum with _ | _
  · grind
  · have hread : le32 (msg.plan.header ++ (bytes ++ (msg.closing ++ behind))) (msg.plan.header.size + bytes.size) = contentChecksum msg.data := by
      have := le32_closing h hends hcheck (msg.plan.header ++ bytes) behind
      rwa [append_assoc, size_append] at this
    grind

theorem not_skippable (behind : ByteArray) :
    ¬ (msg.plan.format = .marked ∧ Frame.isSkippableMark (le32 (frame ++ behind) 0) = true) := fun hh =>
  absurd hh.2 (by rw [h.le32_marked hh.1]; decide)

/-- A frame is as long as its blocks say. -/
theorem frameSize_framed (hends : msg.ends = true) (behind : ByteArray) :
    frameSize msg.plan.format (frame ++ behind) = .ok frame.size := by
  have hread := h.read behind
  have hmark := not_skippable h behind
  have hclosing := size_closing hends
  obtain ⟨bytes, rfl, hblocks⟩ := h.blocks
  rw [hends] at hblocks
  have hinput : msg.plan.header ++ (bytes ++ msg.closing) ++ behind = msg.plan.header ++ (bytes ++ (msg.closing ++ behind)) := by
    simp only [append_assoc]
  rw [hinput] at hread hmark
  have hsize : (msg.plan.header ++ (bytes ++ (msg.closing ++ behind))).size =
      msg.plan.header.size + (bytes.size + (msg.closing.size + behind.size)) := by simp only [size_append]
  have hskip := skipBlocks_blocks hblocks le_rfl h.blockSize_le msg.plan.header (msg.closing ++ behind)
    ((msg.plan.header ++ (bytes ++ (msg.closing ++ behind))).size + 1) (by omega)
  unfold frameSize
  rw [hinput]
  simp only [bind, Except.bind]
  rw [if_neg (fun hh => hmark ⟨hh.1, hh.2.2⟩), hread]
  dsimp only
  rw [show msg.header.size = msg.plan.header.size from rfl, hskip]
  simp only [size_append, hclosing]
  rcases msg.header.checksum with _ | _
  · simp [pure, Except.pure]
  simp [pure, Except.pure, add_assoc]

theorem frameSize_cut (hx : frame = x ++ z) (hz : 0 < z.size ∨ msg.ends = false) :
    ∃ e, frameSize msg.plan.format x = .error e := by
  have hmark : ¬ (msg.plan.format = .marked ∧ Frame.skippableHeaderSize ≤ x.size ∧ Frame.isSkippableMark (le32 x 0) = true) := by
    rintro ⟨hm, hsize, hskip⟩
    have hle := h.le32_marked hm .empty
    have hlead : le32 (x ++ z) 0 = le32 x 0 := by
      have height : Frame.skippableHeaderSize = 8 := rfl
      rw [le32_eq, le32_eq, natAt_append_left (by omega), natAt_append_left (by omega), natAt_append_left (by omega),
        natAt_append_left (by omega)]
    rw [append_empty, hx, hlead] at hle
    rw [hle] at hskip
    exact absurd hskip (by decide)
  obtain ⟨bytes, hframe, hblocks⟩ := h.blocks
  unfold frameSize
  simp only [bind, Except.bind]
  rw [if_neg hmark]
  rcases append_eq_append (hframe.symm.trans hx) with ⟨x', rfl, htail⟩ | ⟨y', hy, hheader, -⟩
  · -- the header is there
    have hread : Frame.read msg.plan.format (msg.plan.header ++ x') = .ok (.frame msg.header) := Frame.Description.read_write _ h.fits
    rw [hread]
    dsimp only
    rw [show msg.header.size = msg.plan.header.size from rfl]
    rcases append_eq_append htail with ⟨w, rfl, hw⟩ | ⟨w, hw, hbytes, -⟩
    · -- so are the blocks, and the checksum is not
      rcases hends : msg.ends with _ | _
      · obtain ⟨e, he⟩ := skipBlocks_cut (z := .empty) hblocks append_empty.symm (.inr hends) le_rfl h.blockSize_le
          msg.plan.header ((msg.plan.header ++ (bytes ++ w)).size + 1)
        have hclosing : w ++ z = .empty := by
          rw [← hw, Message.closing, hends]
          rfl
        have hw0 : w = .empty := by
          refine size_eq_zero_iff.1 ?_
          have := congrArg ByteArray.size hclosing
          rw [size_append, size_empty] at this
          omega
        simp_all
      · rw [hends] at hblocks
        have hclosing := size_closing hends
        have hsum := congrArg ByteArray.size hw
        have hz := hz.resolve_right (by rw [hends]; decide)
        rw [size_append] at hsum
        rw [skipBlocks_blocks hblocks le_rfl h.blockSize_le msg.plan.header w _
          (by simp only [size_append]; omega)]
        dsimp only
        rcases hcheck : msg.header.checksum with _ | _
        · simp_all
        · rw [hcheck, if_pos rfl] at hclosing
          rw [if_pos rfl, if_pos (by simp only [size_append]; omega)]
          exact ⟨_, rfl⟩
    · obtain ⟨e, he⟩ := skipBlocks_cut hblocks hbytes (.inl hw) le_rfl h.blockSize_le msg.plan.header
        ((msg.plan.header ++ x').size + 1)
      rw [he]
      exact ⟨_, rfl⟩
  · -- the header is not
    have hsum := congrArg ByteArray.size hheader
    rw [size_append] at hsum
    have hshort : x = slice msg.plan.description.write 0 x.size := by
      rw [← Plan.header_eq, hheader, slice_append_of_le le_rfl, slice_all]
    have hread := Frame.Description.read_take h.fits (k := x.size) (by rw [← Plan.header_eq]; omega)
    rw [← hshort, show msg.plan.description.format = msg.plan.format from rfl, ← Plan.header_eq] at hread
    rw [hread]
    by_cases hprefix : x.size < msg.plan.format.prefixSize
    · rw [if_pos hprefix]
      exact ⟨_, rfl⟩
    · rw [if_neg hprefix, if_pos (by omega)]
      exact ⟨_, rfl⟩

/-- Decoding all frames of a byte string that is one frame gives its content. -/
theorem decodeAll_framed (hends : msg.ends = true) (hu : msg.Understood dict)
    (hcap : msg.data.size ≤ capacity) (test : EndTest) : decodeAll msg.plan.format frame capacity dict test = .ok msg.data := by
  have hdecode := decodeFrame_framed h hends hu hcap test .empty
  have hmark := not_skippable h .empty
  have hprefix := h.prefixSize_le
  have hpos : 0 < msg.plan.format.prefixSize := by cases msg.plan.format <;> decide
  obtain ⟨fuel, hfuel⟩ : ∃ n, frame.size = n + 1 := ⟨frame.size - 1, by omega⟩
  rw [append_empty] at hdecode hmark
  unfold decodeAll
  rw [hfuel, decodeFrames, slice_all]
  rw [if_neg (by omega), if_neg hmark, size_empty, Nat.sub_zero, hdecode]
  dsimp only
  rw [decodeFrames, zero_add, slice_self]
  rw [size_empty, if_pos hpos, if_pos rfl, empty_append]
  rfl

end ZstCodec.Decompress
