import ZstCodec.Proofs.Decompress.Blocks
import ZstCodec.Decompress.Dictionary

/-! # What a frame tells

A message is what a frame was written from: the plan of its header, the content, and what the reader has to know.
`Framed` says that some bytes are its frame, or the front of it up to a flush. What a writer gives is framed
(`framed_of_frames`). -/

namespace ZstCodec.Compress

open Match Block

/-- What the header of a frame says. -/
def Plan.description (p : Plan) : Frame.Description :=
  { format := p.format
    windowLog := p.tuning.windowLog
    contentSize := if p.contentSizeFlag then p.pledged else none
    dictId := p.dictId
    checksum := p.checksum }

theorem Plan.header_eq (p : Plan) : p.header = p.description.write := rfl

/-- A frame of what `content` holds from the origin on, for a reader with the codes and the offsets. -/
structure Message where
  plan : Plan
  layout : Layout
  content : ByteArray
  coding : Coding
  reps : Reps
  /-- The frame ends; else its writer has flushed and will go on. -/
  ends : Bool

namespace Message

def data (m : Message) : ByteArray := slice m.content m.layout.origin m.content.size

def closing (m : Message) : ByteArray := if m.ends then Writer.closing m.plan m.content m.layout.origin else .empty

def header (m : Message) : Frame.Header := m.plan.description.header

theorem size_data (m : Message) : m.data.size = m.content.size - m.layout.origin := size_slice_of_le le_rfl

/-- Some bytes are the frame of a message. -/
structure Framed (m : Message) (frame : ByteArray) : Prop where
  fits : m.plan.description.Fits
  windowLog : m.layout.windowLog = m.plan.tuning.windowLog
  origin_le : m.layout.origin ≤ m.content.size
  blockSize_le : m.layout.blockSize ≤ maxSize
  blockMax : m.layout.blockSize ≤ m.header.blockMax ∨ m.content.size = m.layout.origin
  contentSize : ∀ n, m.header.contentSize = some n → m.data.size ≤ n ∧ (m.ends = true → n = m.data.size)
  blocks : ∃ bytes, frame = m.plan.header ++ (bytes ++ m.closing) ∧
    Blocks m.layout m.content m.ends m.content.size false m.layout.origin m.coding m.reps bytes

/-- A reader with the dictionary `dict` understands the message. -/
structure Understood (m : Message) (dict : Decompress.Dictionary) : Prop where
  ready : Ready m.content m.layout.origin m.coding m.reps dict.memory dict.content
  named : m.plan.dictId = 0 ∨ m.plan.dictId = dict.id

namespace Framed

variable {m : Message} {frame : ByteArray}

variable (h : m.Framed frame)

include h

theorem windowLog_le : m.layout.windowLog ≤ 31 := by
  rw [h.windowLog]
  exact h.fits.windowLog_le

theorem header_le : m.plan.header.size ≤ frame.size := by
  obtain ⟨bytes, rfl, -⟩ := h.blocks
  simp

theorem prefixSize_le : m.plan.format.prefixSize ≤ frame.size :=
  le_trans (Frame.Description.prefixSize_le h.fits) h.header_le

theorem header_pos : 0 < m.plan.header.size := by
  have : 0 < m.plan.format.prefixSize := by cases m.plan.format <;> decide
  exact lt_of_lt_of_le this (Frame.Description.prefixSize_le h.fits)

theorem le32_marked (hm : m.plan.format = .marked) (behind : ByteArray) : le32 (frame ++ behind) 0 = Frame.mark := by
  obtain ⟨bytes, rfl, -⟩ := h.blocks
  rw [append_assoc]
  exact Frame.Description.le32_marked _ hm

theorem read (behind : ByteArray) : Frame.read m.plan.format (frame ++ behind) = .ok (.frame m.header) := by
  obtain ⟨bytes, rfl, -⟩ := h.blocks
  rw [append_assoc]
  exact Frame.Description.read_write _ h.fits

theorem le_blockMax (hi : m.layout.origin ≤ i) (hk : k ≤ m.content.size)
    (hsize : k ≤ i + m.layout.blockSize) : k - i ≤ m.header.blockMax := by
  grind [blockMax]

end Framed

end Message

/-! ### What writers give -/

theorem Plan.blockSize_le_blockMax (p : Plan) : p.blockSize ≤ p.description.header.blockMax ∨ p.pledged = some 0 := by
  have hmax : p.description.header.blockMax = min p.description.header.windowSize Block.maxSize := rfl
  have hsize : p.description.header.windowSize =
      if p.description.singleSegment then p.description.contentSize.getD Frame.unknownSize else 2 ^ p.description.windowLog := rfl
  have hlog : p.description.windowLog = p.tuning.windowLog := rfl
  have hpos := Nat.two_pow_pos p.tuning.windowLog
  have hwindow : p.windowSize ≤ 2 ^ p.tuning.windowLog := by
    unfold Plan.windowSize
    split <;> omega
  rw [hmax, hsize, Plan.blockSize, hlog]
  rcases hs : p.description.singleSegment with _ | _
  · rw [if_neg (by decide)]
    omega
  · -- the content itself is the window
    have hcontent : p.description.contentSize = if p.contentSizeFlag then p.pledged else none := rfl
    rw [Frame.Description.singleSegment, hcontent] at hs
    rw [hcontent]
    rcases hf : p.contentSizeFlag with _ | _
    · rw [hf] at hs
      cases hs
    grind [Plan.windowSize]

/-- The message of a writer that has taken `data`. -/
def Writer.message (w : Writer) (r : Reps) (data : ByteArray) (ends : Bool) : Message :=
  ⟨w.plan, w.layout, w.finder.content ++ data, w.coding, r, ends⟩

namespace Writer

variable {w : Writer} {r : Reps} {data : ByteArray} {ends : Bool}

theorem data_message (h : w.origin = w.finder.content.size) : (w.message r data ends).data = data := by
  unfold Message.data message
  rw [show w.layout.origin = w.finder.content.size from h]
  exact slice_append_right _ _

/-- The promised size, where there is one, is kept to. -/
def Promised (w : Writer) (data : ByteArray) (ends : Bool) : Prop :=
  ∀ n, w.plan.pledged = some n → data.size ≤ n ∧ (ends = true → n = data.size)

theorem framed_of_blocks (hb : w.Begins r) (hp : w.Promised data ends)
    (hsize : ∀ n, w.plan.pledged = some n → n < Frame.unknownSize) (hid : w.plan.dictId < 2 ^ 32)
    (h : Blocks w.layout (w.finder.content ++ data) ends (w.finder.content ++ data).size false w.origin w.coding r bytes) :
    (w.message r data ends).Framed (w.plan.header ++ (bytes ++ (w.message r data ends).closing)) := by
  have husable := hb.usable
  have horigin : (w.message r data ends).layout.origin = w.finder.content.size := hb.origin
  have hcontent : (w.message r data ends).content.size = w.finder.content.size + data.size := size_append
  have hpledged (n : Nat) (h : w.plan.description.contentSize = some n) : w.plan.pledged = some n := by
    rw [show w.plan.description.contentSize = if w.plan.contentSizeFlag then w.plan.pledged else none from rfl] at h
    split at h
    · exact h
    · cases h
  constructor
  · exact ⟨husable.le_window, husable.window_le, hid, fun n h => hsize n (hpledged n h)⟩
  · rfl
  · omega
  · exact min_le_left _ _
  · refine w.plan.blockSize_le_blockMax.imp_right fun h0 => ?_
    have := (hp 0 h0).1
    omega
  · intro n h
    rw [data_message hb.origin]
    exact hp n (hpledged n h)
  · exact ⟨bytes, rfl, h⟩

theorem framed_of_frames (hb : w.Begins r) (h : w.Frames r data frame) (hp : w.Promised data true)
    (hsize : ∀ n, w.plan.pledged = some n → n < Frame.unknownSize) (hid : w.plan.dictId < 2 ^ 32) : (w.message r data true).Framed frame := by
  obtain ⟨bytes, rfl, hblocks⟩ := h
  exact framed_of_blocks hb hp hsize hid hblocks

end Writer

end ZstCodec.Compress
