import ZstCodec.Proofs.Decompress.Frame
import ZstCodec.Decompress.Stream

/-! # Taking the parts of a frame

`Ring` says where the ring of a decoder stands and what of the history is in reach; `Held` that the decoder has all that
the frame has told so far; `Awaits` what bytes it waits for and what content they stand for. Taking a part keeps all of
this (`Awaits.advance`). -/

namespace ZstCodec.Block

theorem Coding.later_later (c : Coding) : c.later.later = c.later := by
  unfold Coding.later
  grind

end ZstCodec.Block

namespace ZstCodec.Decompress.Stream

open Match Compress
open Block (Coding Memory EndTest Header headerSize maxSize RoomFor)

variable {left out rest src : ByteArray} {capacity size : Nat} {s' : Stream}

/-! ### The ring -/

/-- The ring of a decoder at `place`. At least `window` bytes are in reach when it starts over. -/
structure Ring (s : Stream) (window place : Nat) : Prop where
  produced : s.contentStart + s.decoded = s.history.size
  fresh : s.ringEnd = none → s.round = 0 ∧ s.low = 0 ∧ s.decoded = 0 ∧ place = 0
  behind : ∀ e, s.ringEnd = some e →
    s.round + e = s.history.size ∧ s.contentStart ≤ s.round ∧ (place = e ∨ place = 0 ∧ window ≤ e)
  low : s.low = 0 ∨ s.contentStart ≤ s.low ∧ s.low + window ≤ s.round
  whole : ∀ n, s.frame.contentSize = some n → n ≤ s.outSize → place = s.decoded
  large : s.outSize < s.frame.contentSize.getD Frame.unknownSize → window + s.frame.blockMax ≤ s.outSize

/-- There is room for the next block. -/
def Roomy (s : Stream) : Prop := s.outStart + s.frame.blockMax ≤ s.outSize ∨ ∃ n, s.frame.contentSize = some n ∧ n ≤ s.outSize

variable {s : Stream} {window place n : Nat}

theorem Ring.le_capacity (h : s.Ring window s.outStart) (hr : s.Roomy) (hn : n ≤ s.frame.blockMax)
    (hsize : ∀ N, s.frame.contentSize = some N → s.decoded + n ≤ N) : n ≤ s.outSize - s.outStart := by
  rcases hr with hr | ⟨N, hN, hle⟩
  · omega
  · have := h.whole N hN hle
    have := hsize N hN
    omega

/-- Where a new round starts, the one before is still in reach. -/
theorem Ring.checkRound (h : s.Ring window s.outStart) (capacity : Nat) :
    ∃ low round ringEnd warm, s.checkRound capacity = { s with low, round, ringEnd, warm } ∧
      Ring { s with low, round, ringEnd, warm } window s.outStart ∧ (0 < capacity → ringEnd = some s.outStart) := by
  unfold Stream.checkRound
  split
  · rename_i hnew
    refine ⟨_, _, _, _, rfl, ⟨h.produced, fun hnone => (nomatch hnone), fun e he => ?_, ?_, h.whole, h.large⟩, fun _ => rfl⟩
    · -- the round starts at the front of the ring
      have hzero : s.outStart = 0 := by
        rcases he' : s.ringEnd with _ | e'
        · exact (h.fresh he').2.2.2
        · rcases (h.behind e' he').2.2 with hp | hp
          · exact absurd (by rw [he', hp]) hnew.2
          · exact hp.1
      grind [produced]
    · rcases he' : s.ringEnd with _ | e'
      · exact .inl (h.fresh he').1
      · obtain ⟨hround, hstart, hplace⟩ := h.behind e' he'
        grind
  · refine ⟨s.low, s.round, s.ringEnd, s.warm, rfl, h, fun hcap => ?_⟩
    simp_all

theorem Ring.produce (h : s.Ring window s.outStart) (he : s.ringEnd = some s.outStart) (x : ByteArray)
    (hhist : s'.history = s.history ++ x) (hdec : s'.decoded = s.decoded + x.size) (hend : s'.ringEnd = some (s.outStart + x.size))
    (hstart : s'.contentStart = s.contentStart) (hlow : s'.low = s.low) (hround : s'.round = s.round) (hframe : s'.frame = s.frame)
    (hout : s'.outSize = s.outSize) : s'.Ring window (s.outStart + x.size) := by
  have hp := h.produced
  have hsize : s'.history.size = s.history.size + x.size := by rw [hhist, size_append]
  obtain ⟨hb, hb', -⟩ := h.behind _ he
  constructor
  · omega
  · simp_all
  · grind
  · have := h.low
    omega
  · intro N hN hle
    rw [hframe] at hN
    rw [hout] at hle
    rw [hdec, h.whole N hN hle]
  · rw [hout, hframe]
    exact h.large

/-- Where the room behind the output is too small, the ring may start over. -/
theorem Ring.wrap (h : s.Ring window place) (hpos : 0 < place) (hlarge : s.outSize < s.frame.contentSize.getD Frame.unknownSize)
    (hend : s.outSize < place + s.frame.blockMax) : s.Ring window 0 where
  produced := h.produced
  fresh := fun hnone => ⟨(h.fresh hnone).1, (h.fresh hnone).2.1, (h.fresh hnone).2.2.1, rfl⟩
  behind := fun e he => by
    obtain ⟨hb, hb', hp⟩ := h.behind e he
    have := h.large hlarge
    omega
  low := h.low
  whole := fun N hN hle => by
    grind
  large := h.large

/-! ### What has been told -/

/-- The decoder has all that the message tells up to `i`. -/
structure Held (s : Stream) (msg : Message) (i : Nat) (c : Coding) (r : Reps) (place : Nat) : Prop where
  frame : s.frame = msg.header
  inSize : max msg.header.blockMax 4 ≤ s.inSize
  ready : Ready msg.content i c r s.memory s.history
  told : slice s.history s.contentStart s.history.size = slice msg.content msg.layout.origin i
  origin_le : msg.layout.origin ≤ i
  le : i ≤ msg.content.size
  ring : s.Ring (2 ^ msg.layout.windowLog) place

variable {msg : Message} {frame : ByteArray} {i j k : Nat} {c c' c'' : Coding} {r r' : Reps}

def core (s : Stream) : Frame.Header × Nat × Memory × ByteArray × Nat × Nat × Option Nat × Nat × Nat × Nat :=
  (s.frame, s.inSize, s.memory, s.history, s.contentStart, s.decoded, s.ringEnd, s.round, s.low, s.outSize)

section

variable (h : s.Held msg i c r place)

include h

theorem Held.congr (hs : s'.core = s.core) : s'.Held msg i c r place := by
  simp only [core, Prod.mk.injEq] at hs
  obtain ⟨h1, h2, h3, h4, h5, h6, h7, h8, h9, h10⟩ := hs
  obtain ⟨g1, g2, g3, g4, g5, g6, ⟨g7, g8, g9, g10, g11, g12⟩⟩ := h
  constructor
  · rwa [h1]
  · rwa [h2]
  · rwa [h3, h4]
  · rwa [h4, h5]
  · exact g5
  · exact g6
  · constructor
    · rwa [h4, h5, h6]
    · rwa [h6, h7, h8, h9]
    · rwa [h4, h5, h7, h8]
    · rwa [h5, h8, h9]
    · rwa [h1, h6, h10]
    · rwa [h1, h10]

theorem Held.decoded_eq : s.decoded = i - msg.layout.origin := by
  have := congrArg ByteArray.size h.told
  rw [size_slice_of_le le_rfl, size_slice_of_le h.le] at this
  have := h.ring.produced
  omega

theorem Held.forget : s.Held msg i {} r place := { h with ready := h.ready.forget }

theorem Held.later : s.Held msg i c.later r place where
  frame := h.frame
  inSize := h.inSize
  ready := by
    have := h.ready.plain (le_refl i) h.le
    rwa [slice_self, append_empty] at this
  told := h.told
  origin_le := h.origin_le
  le := h.le
  ring := h.ring

end

theorem Held.next (h : s.Held msg i c' r place) (hc : c'' = c' ∨ c'' = {}) : s.Held msg i c'' r place := by
  rcases hc with rfl | rfl
  · exact h
  · exact h.forget

theorem Held.checkRound (h : s.Held msg i c r s.outStart) (capacity : Nat) :
    ∃ low round ringEnd warm, s.checkRound capacity = { s with low, round, ringEnd, warm } ∧
      Held { s with low, round, ringEnd, warm } msg i c r s.outStart ∧ (0 < capacity → ringEnd = some s.outStart) := by
  obtain ⟨low, round, ringEnd, warm, heq, hring, hcap⟩ := h.ring.checkRound capacity
  exact ⟨low, round, ringEnd, warm, heq, ⟨h.frame, h.inSize, h.ready, h.told, h.origin_le, h.le, hring⟩, hcap⟩

/-- What a block may refer to is in reach. -/
theorem Held.reach (h : s.Held msg i c r s.outStart) (he : s.ringEnd = some s.outStart)
    (hallows : msg.layout.Allows k window) (hik : i < k) (hq : i ≤ q) (hw : Within firstPosition window q o) :
    s.low + o + i ≤ s.history.size + q := by
  obtain ⟨hround, -, -⟩ := h.ring.behind _ he
  rcases h.ring.low with hlow | ⟨hstart, hlow⟩
  · rw [hlow]
    exact h.ready.reach hw
  · have hdec := h.decoded_eq
    have hprod := h.ring.produced
    have hwin := hw.le_window
    have horigin := h.origin_le
    rcases hallows with hwindow | ⟨hview, -⟩
    · omega
    · -- the dictionary is out of sight by then
      omega

theorem Held.produce (h : s.Held msg i c r s.outStart) (he : s.ringEnd = some s.outStart) (hij : i ≤ j) (hj : j ≤ msg.content.size)
    (hready : Ready msg.content j c' r' s'.memory (s.history ++ slice msg.content i j))
    (hhist : s'.history = s.history ++ slice msg.content i j) (hdec : s'.decoded = s.decoded + (j - i))
    (hend : s'.ringEnd = some (s.outStart + (j - i))) (hstart : s'.contentStart = s.contentStart) (hlow : s'.low = s.low)
    (hround : s'.round = s.round) (hframe : s'.frame = s.frame) (hin : s'.inSize = s.inSize) (hout : s'.outSize = s.outSize) :
    s'.Held msg j c' r' (s.outStart + (j - i)) := by
  have hx : (slice msg.content i j).size = j - i := size_slice_of_le hj
  have hle : s.contentStart ≤ s.history.size := by
    have := h.ring.produced
    omega
  constructor
  · rw [hframe]
    exact h.frame
  · rw [hin]
    exact h.inSize
  · rw [hhist]
    exact hready
  · have hsplit := slice_append_slice (b := s.history ++ slice msg.content i j) hle
      (show s.history.size ≤ (s.history ++ slice msg.content i j).size by rw [size_append]; omega)
    rw [hhist, hstart, ← hsplit, slice_append_of_le le_rfl, h.told, slice_append_right, slice_append_slice h.origin_le hij]
  · exact le_trans h.origin_le hij
  · exact hj
  · have := h.ring.produce he (slice msg.content i j) hhist (by rw [hx]; exact hdec) (by rw [hx]; exact hend) hstart hlow hround hframe hout
    rwa [hx] at this

/-! ### What is awaited -/

/-- The decoder, which has got to `place`, waits for bytes, which stand for the content that follows. -/
inductive Awaits (msg : Message) (s : Stream) (place : Nat) : ByteArray → ByteArray → Prop
  | header {i : Nat} {c : Coding} {r : Reps} {bytes : ByteArray} : s.part = .blockHeader → s.expected = headerSize →
      s.Held msg i c r place → Blocks msg.layout msg.content msg.ends msg.content.size false i c r bytes →
      Awaits msg s place (bytes ++ msg.closing) (slice msg.content i msg.content.size)
  | body {i k window size : Nat} {c c' c'' : Coding} {r r' : Reps} {body rest : ByteArray} {last : Bool} :
      s.part = (if last then .lastBlock else .block) → s.expected = body.size → 0 < body.size →
      (s.block.kind = .repeated → s.block.size = k - i) → s.Held msg i c r place → i < k → k ≤ msg.content.size →
      k ≤ i + msg.layout.blockSize → msg.layout.Allows k window →
      Body msg.content window i k c r s.block.kind size body c' r' → c'' = c' ∨ c'' = {} →
      Blocks msg.layout msg.content msg.ends msg.content.size last k c'' r' rest →
      Awaits msg s place (body ++ (rest ++ msg.closing)) (slice msg.content i msg.content.size)
  | checksum {c : Coding} {r : Reps} : s.part = .checksum → s.expected = 4 → msg.ends = true → msg.header.checksum = true →
      s.Held msg msg.content.size c r place → Awaits msg s place msg.closing .empty
  | past : s.part = .opening → s.expected = 0 → msg.ends = true → Awaits msg s place .empty .empty

section

variable (h : Awaits msg s place rest out)

include h

theorem Awaits.congr (hs : s'.core = s.core)
    (hpart : s'.part = s.part) (hexp : s'.expected = s.expected) (hblock : s'.block = s.block) : Awaits msg s' place rest out := by
  cases h with
  | header hp he hh hb => exact .header (hpart.trans hp) (hexp.trans he) (hh.congr hs) hb
  | body hp he hpos hrun hh hik hk hle hallows hbody hnext hrest =>
    rw [← hblock] at hrun hbody
    exact .body (hpart.trans hp) (hexp.trans he) hpos hrun (hh.congr hs) hik hk hle hallows hbody hnext hrest
  | checksum hp he hends hc hh => exact .checksum (hpart.trans hp) (hexp.trans he) hends hc (hh.congr hs)
  | past hp he hends => exact .past (hpart.trans hp) (hexp.trans he) hends

theorem Awaits.wrap (hpos : 0 < place)
    (hlarge : s.outSize < s.frame.contentSize.getD Frame.unknownSize) (hend : s.outSize < place + s.frame.blockMax) :
    Awaits msg s 0 rest out := by
  have hheld {i : Nat} {c : Coding} {r : Reps} (hh : s.Held msg i c r place) : s.Held msg i c r 0 :=
    { hh with ring := hh.ring.wrap hpos hlarge hend }
  cases h with
  | header hp he hh hb => exact .header hp he (hheld hh) hb
  | body hp he hpos hrun hh hik hk hle hallows hbody hnext hrest =>
    exact .body hp he hpos hrun (hheld hh) hik hk hle hallows hbody hnext hrest
  | checksum hp he hends hc hh => exact .checksum hp he hends hc (hheld hh)
  | past hp he hends => exact .past hp he hends

theorem Awaits.large (hexp : s.expected ≠ 0)
    (hlarge : s.outSize < s.frame.contentSize.getD Frame.unknownSize) : s.frame.blockMax ≤ s.outSize := by
  have hheld {i : Nat} {c : Coding} {r : Reps} (hh : s.Held msg i c r place) : s.frame.blockMax ≤ s.outSize :=
    le_trans (Nat.le_add_left _ _) (hh.ring.large hlarge)
  cases h with
  | header _ _ hh => exact hheld hh
  | body _ _ _ _ hh => exact hheld hh
  | checksum _ _ _ _ hh => exact hheld hh
  | past _ he => exact absurd he hexp

theorem Awaits.part_ne : s.part ≠ .skipped := by
  cases h with
  | header hp => simp [hp]
  | @body _ _ _ _ _ _ _ _ _ _ _ last hp => cases last <;> simp [hp]
  | checksum hp => simp [hp]
  | past hp => simp [hp]

end

/-- Behind the last block the checksum is awaited, if there is one. -/
theorem Held.afterLastBlock (h : s.Held msg msg.content.size c r place) (hends : msg.ends = true) :
    ∃ part expected, s.afterLastBlock = { s with part, expected } ∧ Awaits msg { s with part, expected } place msg.closing .empty := by
  unfold Stream.afterLastBlock
  rcases hcheck : s.frame.checksum with _ | _
  · have hplan : msg.plan.checksum = false := by
      rw [← show msg.header.checksum = msg.plan.checksum from rfl, ← h.frame, hcheck]
    have hclosing : msg.closing = .empty := by
      rw [Message.closing, if_pos hends, Writer.closing, if_neg (by rw [hplan]; decide)]
    rw [hclosing, if_neg (by decide)]
    exact ⟨_, _, rfl, .past rfl rfl hends⟩
  · exact ⟨_, _, rfl, .checksum rfl rfl hends (by rw [← h.frame, hcheck]) (h.congr rfl)⟩

theorem takeBlockHeader_spec (hf : msg.Framed frame) (h : s.Held msg i c r s.outStart)
    (hik : i ≤ k) (hk : k ≤ msg.content.size) (hblock : k ≤ i + msg.layout.blockSize) (hallows : msg.layout.Allows k window)
    (hbody : Body msg.content window i k c r head.kind head.size body c' r') (hnext : c'' = c' ∨ c'' = {})
    (hrest : Blocks msg.layout msg.content msg.ends msg.content.size head.last k c'' r' rest) :
    ∃ part expected block, s.takeBlockHeader (Header.write .empty head) = ({ s with part, expected, block }, .ok 0) ∧
      Awaits msg { s with part, expected, block } s.outStart (body ++ (rest ++ msg.closing)) (slice msg.content i msg.content.size) := by
  have hshort := hbody.bodySize hk
  have hmaxSize : maxSize = 131072 := rfl
  have hbound := hf.blockSize_le
  have hmax := hf.le_blockMax h.origin_le hk hblock
  have hread : Header.read (Header.write .empty head) 0 = .ok head := by
    have := Header.read_write (h := head) (by omega) .empty .empty
    rwa [append_empty, empty_append] at this
  unfold Stream.takeBlockHeader
  rw [hread]
  dsimp only
  rw [if_neg (by rw [h.frame]; omega), hshort.1]
  by_cases h0 : body.size = 0
  · -- nothing follows the header
    obtain ⟨rfl, rfl, rfl⟩ := hbody.of_empty hk hik h0
    rw [if_neg (by omega), size_eq_zero_iff.1 h0, empty_append]
    rcases hlast : head.last with _ | _
    · rw [hlast] at hrest
      exact ⟨_, _, _, rfl, .header rfl rfl ((h.later.next hnext).congr rfl) hrest⟩
    · rw [hlast] at hrest
      obtain ⟨rfl, rfl, hends⟩ := hrest.eq_of_over
      rw [if_pos rfl, slice_self, empty_append]
      obtain ⟨part, expected, heq, hawaits⟩ :=
        Held.afterLastBlock (s := { s with expected := ByteArray.empty.size, block := head }) (h.congr rfl) hends
      simp_all
  · have hrun : head.kind = .repeated → head.size = k - i := by
      generalize head.kind = kind, head.size = size at hbody
      rintro rfl
      cases hbody with
      | run => rfl
    rw [if_pos h0]
    exact ⟨_, _, _, rfl, .body rfl rfl (by omega) hrun (h.congr rfl) (by omega) hk hblock hallows hbody hnext hrest⟩

/-! ### Taking a part -/

/-- What taking a part leaves as it is. -/
def kept (s : Stream) :
    Frame.Format × Nat × Option Dictionary × Nat × Bool × ByteArray × Nat × Nat × Nat × Frame.Header :=
  (s.format, s.maxWindow, s.dict, s.idle, s.hostage, s.loaded, s.inSize, s.outStart, s.outSize, s.frame)

section

variable {window : Nat} (hf : msg.Framed frame) (h : s.Held msg i c r s.outStart) (he : s.ringEnd = some s.outStart)
  (hexp : s.expected = (src ++ left).size) (hsrc : 0 < src.size) (hrun : s.block.kind = .repeated → s.block.size = k - i) (hik : i < k)
  (hk : k ≤ msg.content.size) (hblock : k ≤ i + msg.layout.blockSize) (hallows : msg.layout.Allows k window)
  (hbody : Body msg.content window i k c r s.block.kind size (src ++ left) c' r')
  (hpiece : left.size = 0 ∨ s.block.kind = .stored) (hcap : k - i ≤ capacity)

include hf h he hexp hsrc hrun hik hk hblock hallows hbody hpiece hcap

/-- The body of a block is decoded, or a piece of it if it is stored. -/
theorem runBlock_spec :
    ∃ j c₁ r₁ memory test, s.runBlock capacity src =
        ({ s with history := s.history ++ slice msg.content i j, memory, test, expected := left.size }, .ok (j - i)) ∧
      i < j ∧ j ≤ k ∧ Ready msg.content j c₁ r₁ memory (s.history ++ slice msg.content i j) ∧
      (left.size = 0 ∧ j = k ∧ c₁ = c' ∧ r₁ = r' ∨
        0 < left.size ∧ j < k ∧ Body msg.content window j k c₁ r₁ s.block.kind (k - j) left c' r') := by
  have hmax := hf.le_blockMax h.origin_le hk hblock
  have hbound := hf.blockSize_le
  unfold Stream.runBlock
  generalize hkind : s.block.kind = kind at hbody hpiece hrun
  generalize hwhole : src ++ left = body at hbody hexp
  have hsum := congrArg ByteArray.size hwhole
  rw [size_append] at hsum
  cases hbody with
  | stored =>
    have hlen := size_slice_of_le (i := i) hk
    have hsplit := slice_append_slice (b := msg.content) (show i ≤ i + src.size by omega) (show i + src.size ≤ k by omega)
    obtain ⟨hfront, hback⟩ : src = slice msg.content i (i + src.size) ∧ left = slice msg.content (i + src.size) k := by
      grind [size_slice_of_le, append_inj]
    refine ⟨i + src.size, c.later, r, s.memory, s.test, ?_, by omega, by omega, h.ready.plain (by omega) (by omega), ?_⟩
    · grind
    · rcases Nat.eq_zero_or_pos left.size with h0 | hpos
      · exact .inl ⟨h0, by omega, rfl, rfl⟩
      · have hpiece' : Body msg.content window (i + src.size) k c.later r .stored (k - (i + src.size))
            (slice msg.content (i + src.size) k) c.later.later r := .stored
        grind [Coding.later_later]
  | run hlt hisRun =>
    have h0 : left.size = 0 := hpiece.resolve_right (by decide)
    have hsrc' : src = ByteArray.empty.push (byteAt msg.content i) := by
      rw [← hwhole, size_eq_zero_iff.1 h0, append_empty]
    have hbyte : byteAt src 0 = byteAt msg.content i := by
      rw [hsrc']
      exact byteAt_push_self _
    refine ⟨k, c.later, r, s.memory, s.test, ?_, hik, le_refl k, h.ready.plain (le_of_lt hik) hk, .inl ⟨h0, rfl, rfl, rfl⟩⟩
    dsimp only
    rw [hrun rfl, if_neg (by omega), hbyte, pushMany_eq_append, ← slice_of_isRun hk hisRun, h0]
  | coded hrest hex hw =>
    have h0 : left.size = 0 := hpiece.resolve_right (by decide)
    have hroom : RoomFor { streaming := true, capacity, blockMax := s.frame.blockMax } (k - i) := ⟨by rw [h.frame]; exact hmax, hcap⟩
    obtain ⟨memory, hdec, hready⟩ := h.ready.decode s.test hallows hf.windowLog_le hrest hk (by omega) (le_of_lt hik) hex hw hroom
      fun q o hq _ hwithin => h.reach he hallows hik hq hwithin
    simp_all

theorem takeBlock_spec (hpart : s.part = if last then .lastBlock else .block) (hnext : c'' = c' ∨ c'' = {})
    (hrest : Blocks msg.layout msg.content msg.ends msg.content.size last k c'' r' rest) :
    ∃ s' j, s.takeBlock capacity src = (s', .ok (j - i)) ∧ i < j ∧ j ≤ k ∧ s'.kept = s.kept ∧ s'.outEnd = s.outEnd ∧
      s'.history = s.history ++ slice msg.content i j ∧
      Awaits msg s' (s.outStart + (j - i)) (left ++ (rest ++ msg.closing)) (slice msg.content j msg.content.size) := by
  obtain ⟨j, c₁, r₁, memory, test, heq, hij, hjk, hready, hcases⟩ :=
    runBlock_spec hf h he hexp hsrc hrun hik hk hblock hallows hbody hpiece hcap
  have hmax := hf.le_blockMax h.origin_le hk hblock
  have hheld {t : Stream} (hs : t.core = (s.frame, s.inSize, memory, s.history ++ slice msg.content i j, s.contentStart, s.decoded + (j - i),
      some (s.outStart + (j - i)), s.round, s.low, s.outSize)) : t.Held msg j c₁ r₁ (s.outStart + (j - i)) := by
    simp only [core, Prod.mk.injEq] at hs
    obtain ⟨h1, h2, h3, h4, h5, h6, h7, h8, h9, h10⟩ := hs
    exact h.produce he (le_of_lt hij) (le_trans hjk hk) (by rw [h3]; exact hready) h4 h6 h7 h5 h9 h8 h1 h2 h10
  unfold Stream.takeBlock
  rw [heq]
  dsimp only
  rw [if_neg (by rw [h.frame]; omega)]
  rcases hcases with ⟨h0, rfl, rfl, rfl⟩ | ⟨hpos, hjlt, hbody'⟩
  · -- the block is complete
    rw [if_neg (by omega), size_eq_zero_iff.1 h0, empty_append]
    rcases last with _ | _
    · rw [if_neg (by rw [hpart]; decide)]
      exact ⟨_, _, rfl, hij, hjk, rfl, rfl, rfl, .header rfl rfl ((hheld rfl).next hnext) hrest⟩
    · obtain ⟨rfl, rfl, hends⟩ := hrest.eq_of_over
      have hcontent : ¬ (s.frame.contentSize.isSome = true ∧ s.frame.contentSize ≠ some (s.decoded + (msg.content.size - i))) := by
        rintro ⟨hsome, hne⟩
        obtain ⟨n, hn⟩ := Option.isSome_iff_exists.1 hsome
        have := (hf.contentSize n (by rw [← h.frame]; exact hn)).2 hends
        rw [msg.size_data] at this
        have := h.decoded_eq
        have := h.origin_le
        exact hne (by rw [hn, Option.some.injEq]; omega)
      rw [if_pos (show s.part = .lastBlock from hpart), if_neg hcontent, empty_append]
      obtain ⟨part, expected, hafter, hawaits⟩ := (hheld (t := { s with
        history := s.history ++ slice msg.content i msg.content.size, memory, test, expected := ByteArray.empty.size
        decoded := s.decoded + (msg.content.size - i), ringEnd := some (s.outStart + (msg.content.size - i)) }) rfl).afterLastBlock hends
      rw [hafter]
      refine ⟨_, msg.content.size, rfl, hij, hjk, rfl, rfl, rfl, ?_⟩
      rw [slice_self]
      exact hawaits
  · -- more of it is to come
    rw [if_pos hpos]
    refine ⟨_, _, rfl, hij, hjk, rfl, rfl, rfl,
      .body hpart rfl hpos (fun hrep => ?_) (hheld rfl) hjlt hk (by omega) hallows hbody' hnext hrest⟩
    simp_all

end

/-- A part may be taken from `n` bytes: a stored block comes in pieces. -/
def Accepts (s : Stream) (n : Nat) : Prop :=
  n = s.expected ∨ (s.part = .block ∨ s.part = .lastBlock) ∧ s.block.kind = .stored ∧ n ≤ s.expected

/-- What a part does: it produces nothing, or content that waits, of one block at most. -/
def Took (msg : Message) (s : Stream) (rest out : ByteArray) (n : Nat) (s' : Stream) : Prop :=
  s'.kept = s.kept ∧ s'.outEnd = s.outEnd ∧
    (n = 0 ∧ s'.history = s.history ∧ Awaits msg s' s.outStart rest out ∨
      ∃ x out', 0 < n ∧ n ≤ maxSize ∧ n = x.size ∧ s'.history = s.history ++ x ∧ out = x ++ out' ∧ Awaits msg s' (s.outStart + n) rest out')

variable (hf : msg.Framed frame) (h : Awaits msg s s.outStart (src ++ rest) out) (hroom : s.Roomy) (hn : 0 < src.size) (hsrc : s.Accepts src.size)

include hf h hroom hn hsrc

theorem Awaits.takePart :
    ∃ s' n, s.takePart (s.outSize - s.outStart) src = (s', .ok n) ∧ Took msg s rest out n s' := by
  generalize hbytes : src ++ rest = bytes at h
  unfold Stream.takePart
  cases h with
  | @header i c r bytes hpart hexp hh hblocks =>
    have hsize : src.size = headerSize := by
      rcases hsrc with hsrc | ⟨hp, -⟩
      · exact hsrc.trans hexp
      · simp_all
    generalize hover : false = past at hblocks
    cases hblocks with
    | nil =>
      -- the writer has flushed, and nothing is left
      rw [Message.closing, if_neg (by rw [← hover]; decide), append_empty] at hbytes
      simp_all
    | cons hik hk hle hallows hbody hnext hrest =>
      rw [append_assoc] at hbytes
      obtain ⟨rfl, rfl⟩ := append_inj hbytes (hsize.trans (Header.size_write _).symm)
      obtain ⟨low, round, ringEnd, warm, heq, hheld, -⟩ := hh.checkRound (s.outSize - s.outStart)
      obtain ⟨part, expected, block, htake, hawaits⟩ := takeBlockHeader_spec hf hheld hik hk hle hallows hbody hnext hrest
      rw [heq]
      dsimp only
      rw [hpart]
      rw [hpart] at htake
      rw [htake, append_assoc]
      exact ⟨_, 0, rfl, rfl, rfl, .inl ⟨rfl, rfl, hawaits⟩⟩
  | @body i k window size c c' c'' r r' body rest' last hpart hexp hpos hrun hh hik hk hblock hallows hbody hnext hrest =>
    have hcap : k - i ≤ s.outSize - s.outStart := by
      refine hh.ring.le_capacity hroom (by rw [hh.frame]; exact hf.le_blockMax hh.origin_le hk hblock) fun N hN => ?_
      have hle := (hf.contentSize N (by rw [← hh.frame]; exact hN)).1
      rw [msg.size_data] at hle
      have := hh.decoded_eq
      have := hh.origin_le
      omega
    obtain ⟨left, hleft, hrest'⟩ : ∃ left, body = src ++ left ∧ rest = left ++ (rest' ++ msg.closing) :=
      exists_append_of_le hbytes (by rcases hsrc with h | ⟨-, -, h⟩ <;> omega)
    have hpiece : left.size = 0 ∨ s.block.kind = .stored := by
      rcases hsrc with hsize | ⟨-, hkind, -⟩
      · grind
      · exact .inr hkind
    subst hleft hrest'
    obtain ⟨low, round, ringEnd, warm, heq, hheld, hend⟩ := hh.checkRound (s.outSize - s.outStart)
    obtain ⟨s', j, htake, hij, hjk, hkept, hend', hhist, hawaits⟩ := takeBlock_spec hf hheld (hend (by omega)) hexp hn hrun hik hk hblock
      hallows hbody hpiece hcap hpart hnext hrest
    have hj := hjk.trans hk
    have hlen : (slice msg.content i j).size = j - i := size_slice_of_le hj
    have hmax := hf.blockSize_le
    have htook : Took msg s (left ++ (rest' ++ msg.closing)) (slice msg.content i msg.content.size) (j - i) s' :=
      ⟨hkept, hend', .inr ⟨slice msg.content i j, slice msg.content j msg.content.size, by omega, by omega, hlen.symm, hhist,
        (slice_append_slice (le_of_lt hij) hj).symm, hawaits⟩⟩
    grind
  | checksum hpart hexp hends hcheck hh =>
    obtain ⟨low, round, ringEnd, warm, heq, hheld, -⟩ := hh.checkRound (s.outSize - s.outStart)
    have hclosing := size_closing hends
    rw [hcheck, if_pos rfl] at hclosing
    have hsize : src.size = 4 := by
      rcases hsrc with hsrc | ⟨hp, -⟩
      · exact hsrc.trans hexp
      · simp_all
    obtain ⟨rfl, rfl⟩ := append_inj (hbytes.trans (append_empty).symm) (hsize.trans hclosing.symm)
    have hle : s.contentStart ≤ s.history.size := by
      have := hh.ring.produced
      omega
    have hsum : le32 msg.closing 0 = (XxHash64.range s.history s.contentStart s.history.size).toNat % 2 ^ 32 := by
      have := le32_closing hf hends hcheck .empty .empty
      rw [empty_append, append_empty] at this
      rw [XxHash64.range_eq_hash hle le_rfl, hh.told]
      exact this
    rw [heq]
    rw [hpart]
    dsimp only
    rw [if_neg (by rw [hsum]; exact not_not.2 rfl)]
    exact ⟨_, 0, rfl, rfl, rfl, .inl ⟨rfl, rfl, .past rfl rfl hends⟩⟩
  | past hpart hexp =>
    simp_all

/-- Taking a part leaves content that waits, or none and the decoder reads on. -/
theorem Awaits.advance :
    ∃ s', s.advance src = (s', .ok ()) ∧ s'.kept = s.kept ∧
      (s'.stage = .read ∧ s'.outEnd = s.outEnd ∧ Awaits msg s' s'.outStart rest out ∨
        ∃ x out', s'.stage = .flush ∧ 0 < x.size ∧ x.size ≤ maxSize ∧ s'.outEnd = s.outStart + x.size ∧ s'.history = s.history ++ x ∧ out = x ++ out' ∧
          Awaits msg s' s'.outEnd rest out') := by
  have hskip : s.part ≠ .skipped := h.part_ne
  obtain ⟨s', n, htake, hkept, hend, hcases⟩ := h.takePart hf hroom hn hsrc
  have hstart : s'.outStart = s.outStart := by
    simp only [kept, Prod.mk.injEq] at hkept
    exact hkept.2.2.2.2.2.2.2.1
  unfold Stream.advance
  dsimp only
  rw [if_neg hskip, htake]
  dsimp only
  rcases hcases with ⟨rfl, hhist, hawaits⟩ | ⟨x, out', hpos, hmax, rfl, hhist, hout, hawaits⟩
  · rw [if_pos ⟨rfl, hskip⟩]
    refine ⟨_, rfl, hkept, .inl ⟨rfl, hend, ?_⟩⟩
    rw [hstart]
    exact hawaits.congr rfl rfl rfl rfl
  · rw [if_neg (by omega)]
    refine ⟨_, rfl, hkept, .inr ⟨x, out', rfl, hpos, hmax, by rw [hstart], hhist, hout, ?_⟩⟩
    rw [hstart]
    exact hawaits.congr rfl rfl rfl rfl

end ZstCodec.Decompress.Stream
