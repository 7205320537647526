import ZstCodec.Proofs.Block
import ZstCodec.Proofs.Hash
import ZstCodec.Proofs.Compress.Intake

/-! # The blocks of a frame, as a reader finds them

A reader sees headers and bodies. `Body` says what the body of a block stands for, and `Blocks` what all blocks from
some place on do, up to the end of the frame or to where the writer has flushed. What a reader needs there is `Ready`. -/

namespace ZstCodec.Block

/-! ### Headers -/

theorem le24_append_right (a b : ByteArray) (i : Nat) : le24 (a ++ b) (a.size + i) = le24 b i := by
  rw [le24, le24, le16_append_right, add_assoc, natAt_append_right]

theorem le24_putLe (h : v < 2 ^ 24) (rest : ByteArray) : le24 (putLe .empty v 3 ++ rest) 0 = v := by
  grind [le24, le16, natAt_putLe_append]

theorem Header.size_write (h : Header) : (Header.write .empty h).size = headerSize := by
  rfl

theorem Header.read_write (hs : h.size < 2 ^ 21) (a b : ByteArray) :
    Header.read (a ++ (Header.write .empty h ++ b)) a.size = .ok h := by
  have hsize := h.size_write
  have hread := le24_append_right a (Header.write .empty h ++ b) 0
  rw [add_zero] at hread
  rw [Header.read, if_neg (by simp only [size_append]; omega), hread]
  obtain ⟨last, kind, size⟩ := h
  dsimp only at hs
  have hvalue (code : Nat) (hc : code ≤ 2) :
      le24 (putLe .empty ((if last then 1 else 0) + 2 * code + 8 * size) 3 ++ b) 0 = (if last then 1 else 0) + 2 * code + 8 * size := by
    refine le24_putLe ?_ b
    cases last <;> simp <;> omega
  have hfields (code : Nat) (hc : code ≤ 2) :
      ((if last then 1 else 0) + 2 * code + 8 * size) / 2 % 4 = code ∧ ((if last then 1 else 0) + 2 * code + 8 * size) / 8 = size ∧
        (((if last then 1 else 0) + 2 * code + 8 * size) % 2 == 1) = last := by
    cases last <;> simp <;> omega
  cases kind
  case stored =>
    have h := hfields 0 (by omega)
    rw [Header.write]
    dsimp only
    rw [hvalue 0 (by omega), h.1, h.2.1, h.2.2]
    rfl
  case repeated =>
    have h := hfields 1 (by omega)
    rw [Header.write]
    dsimp only
    rw [hvalue 1 (by omega), h.1, h.2.1, h.2.2]
    rfl
  case compressed =>
    have h := hfields 2 (by omega)
    rw [Header.write]
    dsimp only
    rw [hvalue 2 (by omega), h.1, h.2.1, h.2.2]
    rfl

end ZstCodec.Block

namespace ZstCodec.Compress

open Match Block
open Sequence (EndsWith offsetCode)

variable {p : Policy} {y : Layout} {b history : ByteArray} {window i j k : Nat} {c c' : Coding} {r r' : Reps} {bytes rest : ByteArray}

/-! ### Bodies -/

/-- The body of a block with header `h` that stands for the bytes from `i` to `j`. -/
inductive Body (b : ByteArray) (window i j : Nat) (c : Coding) (r : Reps) : Kind → Nat → ByteArray → Coding → Reps → Prop
  | stored : Body b window i j c r .stored (j - i) (slice b i j) c.later r
  | run : i < j → Writer.isRun b i j = true → Body b window i j c r .repeated (j - i) (ByteArray.empty.push (byteAt b i)) c.later r
  | coded {p : Policy} {seqs : Array Seq} {rest : Nat} {body : ByteArray} {c' : Coding} {r' : Reps} :
      rest ≤ j → Explains b firstPosition window r i seqs.toList (j - rest) r' →
      writeShorter p (j - i) (Cut.literals ⟨i, seqs, rest⟩ b) seqs c = some (body, c') →
      Body b window i j c r .compressed body.size body c'.later r'

theorem Part.body (hij : i < j) (h : Part b window i j last c r bytes c' r') :
    ∃ (head : Header) (body : ByteArray), bytes = Header.write .empty head ++ body ∧ head.last = last ∧
      Body b window i j c r head.kind head.size body c' r' := by
  cases h with
  | stored => exact ⟨⟨last, .stored, j - i⟩, _, rfl, rfl, .stored⟩
  | run hrun =>
    refine ⟨⟨last, .repeated, j - i⟩, _, ?_, rfl, .run hij hrun⟩
    rw [push_eq_append, push_eq_append, empty_append]
  | coded hrest hex hw => exact ⟨⟨last, .compressed, _⟩, _, rfl, rfl, .coded hrest hex hw⟩

/-- The header tells the length of the body, which is no longer than what it stands for. -/
theorem Body.bodySize {h : Header} (hb : Body b window i j c r h.kind h.size body c' r') (hj : j ≤ b.size) :
    h.bodySize = body.size ∧ h.size ≤ j - i ∧ body.size ≤ j - i := by
  obtain ⟨last, kind, size⟩ := h
  dsimp only at hb
  rw [Header.bodySize]
  cases hb with
  | stored => simp_all
  | run hij => exact ⟨rfl, le_rfl, Nat.sub_pos_of_lt hij⟩
  | coded _ _ hw =>
    have := writeShorter_size hw
    grind

theorem writeShorter_pos (h : writeShorter p n literals seqs c = some (body, c')) :
    0 < body.size := by
  obtain ⟨_, litPart, _, seqPart, _, -, hseqs, rfl, -, -⟩ := sections_of_writeShorter h
  grind [size_write_pos]

/-- Only a stored body can be empty. -/
theorem Body.of_empty (h : Body b window i j c r kind size body c' r') (hj : j ≤ b.size)
    (hij : i ≤ j) (h0 : body.size = 0) : j = i ∧ c' = c.later ∧ r' = r := by
  cases h with
  | stored =>
    rw [size_slice_of_le hj] at h0
    exact ⟨by omega, rfl, rfl⟩
  | run hlt =>
    simp_all
  | coded _ _ hw => grind [writeShorter_pos]

/-- A run is one byte over and over. -/
theorem slice_of_isRun (hj : j ≤ b.size) (h : Writer.isRun b i j = true) : slice b i j = replicate (j - i) (byteAt b i) := by
  rw [Writer.isRun, sameBytes_iff] at h
  have hall : ∀ n, i + n < j → byteAt b (i + n) = byteAt b i := by
    intro n
    induction n with
    | zero => exact fun _ => rfl
    | succ n ih =>
      grind
  refine ext_byteAt (by simp_all [size_replicate]) fun n hn => ?_
  grind [size_slice_of_le, byteAt_slice_of_lt, byteAt_replicate]

/-! ### What a reader needs -/

/-- What the writer believes of the reader's tables is true of offsets up to `most`. -/
def SharedUpTo (c : Coding) (m : Memory) (most : Nat) : Prop :=
  ∃ reach, c.Shared reach m ∧ ∀ v, v ≤ most → v < 2 ^ 32 → offsetCode v ≤ reach

theorem offsetCode_le_of_lt (h : v < 2 ^ 32) : offsetCode v ≤ 31 := by
  have := highBit_lt_of_lt (by omega) h
  rw [offsetCode]
  omega

theorem SharedUpTo.nothing (m : Memory) (most : Nat) : SharedUpTo {} m most :=
  ⟨31, .nothing 31 m, fun _ _ h => offsetCode_le_of_lt h⟩

/-- Behind a block there is no bound on the offsets. -/
theorem sharedUpTo_later (h : c.Shared reach m) (most : Nat) : SharedUpTo c.later m most :=
  ⟨31, h.later 31, fun _ _ h => offsetCode_le_of_lt h⟩

/-- A reader can go on from `i`: its content, tables and offsets are as the writer believes. -/
structure Ready (b : ByteArray) (i : Nat) (c : Coding) (r : Reps) (m : Memory) (history : ByteArray) : Prop where
  tail : EndsWith history b firstPosition i
  coding : SharedUpTo c m (i + maxSize - firstPosition)
  reps : m.reps = r

namespace Ready

variable {m : Memory}

variable (h : Ready b i c r m history)

include h

theorem plain (hij : i ≤ j) (hj : j ≤ b.size) :
    Ready b j c.later r m (history ++ slice b i j) := by
  obtain ⟨reach, hc, -⟩ := h.coding
  exact ⟨h.tail.append hij hj, sharedUpTo_later hc _, h.reps⟩

theorem forget : Ready b i {} r m history := ⟨h.tail, .nothing m _, h.reps⟩

/-- Reading is bounded by what the history holds, if all of it is in reach. -/
theorem reach (hw : Within firstPosition window q o) : 0 + o + i ≤ history.size + q := by
  have := h.tail.size
  have := hw.low_le
  omega

theorem decode {rest low : Nat} (test : EndTest)
    (hallows : y.Allows j window) (hlog : y.windowLog ≤ 31) (hrest : rest ≤ j) (hj : j ≤ b.size) (hn : j - i ≤ maxSize) (hij : i ≤ j)
    (hex : Explains b firstPosition window r i seqs.toList (j - rest) r')
    (hw : writeShorter p (j - i) (Cut.literals ⟨i, seqs, rest⟩ b) seqs c = some (body, c')) (hroom : RoomFor room (j - i))
    (hlow : ∀ q o, i ≤ q → q ≤ j → Within firstPosition window q o → low + o + i ≤ history.size + q) :
    ∃ m', Block.decode body room test m low history = .ok (history ++ slice b i j, m') ∧
      Ready b j c'.later r' m' (history ++ slice b i j) := by
  obtain ⟨reach, hc, hmost⟩ := h.coding
  have hfar : window + 3 < 2 ^ 32 ∨ j < 2 ^ 32 := by
    rcases hallows with hwin | hview
    · have : 2 ^ y.windowLog ≤ 2 ^ 31 := Nat.pow_le_pow_right (by omega) hlog
      omega
    · grind [Writer.mostPositions]
  have hreach : ∀ s ∈ seqs, offsetCode s.offsetValue ≤ reach := by
    intro s hs
    have hvalue := offsetValue_of_mem hex (Array.mem_toList_iff.2 hs)
    have hfirst : firstPosition = 2 := rfl
    have hmax : maxSize = 131072 := rfl
    have hle : j - rest ≤ j := Nat.sub_le _ _
    refine hmost _ ?_ ?_ <;> omega
  obtain ⟨m', hdec, hshared, hreps⟩ :=
    decode_writeShorter test hrest hj hn (by rw [h.reps]; exact hex) hw hc hfar hreach hroom h.tail hlow
  exact ⟨m', hdec, h.tail.append hij hj, sharedUpTo_later hshared _, hreps⟩

end Ready

/-! ### Blocks -/

/-- The blocks from `i` to `stop`, as a reader finds them; the last is marked if `ends`. Between two blocks a writer may
forget what it believes of the reader's tables. The first index says whether the last block has been seen. -/
inductive Blocks (y : Layout) (b : ByteArray) (ends : Bool) (stop : Nat) : Bool → Nat → Coding → Reps → ByteArray → Prop
  | nil (c : Coding) (r : Reps) : Blocks y b ends stop ends stop c r .empty
  | cons {i k window : Nat} {c c' c'' : Coding} {r r' : Reps} {head : Header} {body rest : ByteArray} :
      i ≤ k → k ≤ stop → k ≤ i + y.blockSize → y.Allows k window → Body b window i k c r head.kind head.size body c' r' →
      c'' = c' ∨ c'' = {} → Blocks y b ends stop head.last k c'' r' rest →
      Blocks y b ends stop false i c r (Header.write .empty head ++ (body ++ rest))

namespace Blocks

variable {ends past : Bool} {stop : Nat}

theorem le (h : Blocks y b ends stop past i c r bytes) : i ≤ stop := by
  cases h with
  | nil => exact le_rfl
  | cons hik hk => exact le_trans hik hk

theorem eq_of_over (h : Blocks y b ends stop true i c r bytes) : bytes = .empty ∧ i = stop ∧ ends = true := by
  cases h with
  | nil => exact ⟨rfl, rfl, rfl⟩

theorem content_le (h : Blocks y b ends stop past i c r bytes) : stop - i ≤ bytes.size * y.blockSize := by
  induction h with
  | nil => simp
  | cons hik hk hsize _ _ _ _ ih =>
    rw [size_append, Header.size_write, size_append, add_mul, add_mul, headerSize]
    omega

theorem emptyBlock (y : Layout) (b : ByteArray) (stop : Nat) (c : Coding) (r : Reps) : Blocks y b true stop false stop c r Writer.emptyBlock := by
  have hbody : Body b 0 stop stop c r .stored 0 .empty c.later r := by
    have : Body b 0 stop stop c r .stored (stop - stop) (slice b stop stop) c.later r := .stored
    rwa [slice_self, Nat.sub_self] at this
  have : Blocks y b true stop false stop c r
      (Header.write .empty ⟨true, .stored, 0⟩ ++ (.empty ++ .empty)) :=
    .cons (Nat.le_refl stop) (Nat.le_refl stop) (Nat.le_add_right stop y.blockSize) (.inl (Nat.zero_le (2 ^ y.windowLog))) hbody
      (.inl rfl) (.nil c.later r)
  rwa [append_empty, append_empty] at this

theorem of_parts (h : Parts y b false j i c r bytes c' r') (hj : j ≤ stop) (hc : c'' = c' ∨ c'' = {} ∧ i < j)
    (hrest : Blocks y b ends stop false j c'' r' rest) : Blocks y b ends stop false i c r (bytes ++ rest) := by
  induction h with
  | nil c r =>
    simp_all
  | @cons i k window c c' c₁ r r' r'' bytes rest' hik hk hsize hallows hpart hparts ih =>
    obtain ⟨head, body, rfl, hlast, hbody⟩ := hpart.body hik
    rw [append_assoc, append_assoc]
    rcases eq_or_lt_of_le hk with heq | hlt
    · subst heq
      obtain ⟨rfl, rfl, rfl⟩ := hparts.self
      refine .cons (le_of_lt hik) hj hsize hallows hbody (hc.imp_right And.left) ?_
      rw [hlast]
      exact hrest
    · refine .cons (le_of_lt hik) (le_trans hk hj) hsize hallows hbody (.inl rfl) ?_
      grind

theorem of_marked (h : Parts y b true j i c r bytes c' r') (hij : i < j) : Blocks y b true j false i c r bytes := by
  induction h with
  | nil c r => exact absurd hij (lt_irrefl _)
  | @cons i k window c c' c'' r r' r'' bytes rest hik hk hsize hallows hpart hparts ih =>
    obtain ⟨head, body, rfl, hlast, hbody⟩ := hpart.body hik
    refine .cons (le_of_lt hik) hk hsize hallows hbody (.inl rfl) ?_
    rw [hlast]
    rcases eq_or_lt_of_le hk with heq | hlt
    · subst heq
      rw [hparts.self.1, decide_eq_true rfl]
      exact .nil _ _
    grind

end Blocks

/-- A whole frame of `data` that starts with the writer `w`, as a reader finds it. -/
def Writer.Frames (w : Writer) (r : Reps) (data frame : ByteArray) : Prop :=
  ∃ bytes, frame = w.plan.header ++ (bytes ++ closing w.plan (w.finder.content ++ data) w.origin) ∧
    Blocks w.layout (w.finder.content ++ data) true (w.finder.content ++ data).size false w.origin w.coding r bytes

theorem Writer.Frames.of_whole (horigin : w.origin = w.finder.content.size)
    (h : Intake.Whole w r data frame) : w.Frames r data frame := by
  obtain ⟨bytes, c, r', hframe, hparts⟩ := h
  refine ⟨bytes, hframe, ?_⟩
  rcases hparts with ⟨hparts, hne⟩ | ⟨parts, rfl, hparts⟩
  · grind [Blocks.of_marked]
  · exact .of_parts hparts le_rfl (.inl rfl) (.emptyBlock _ _ _ _ _)

end ZstCodec.Compress
