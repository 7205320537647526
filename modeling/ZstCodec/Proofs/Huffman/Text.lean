import ZstCodec.Huffman.Encode
import ZstCodec.Proofs.Huffman.Canonical

/-! # Text in a Huffman code

A text written with a code is read back, one symbol at a time or in pairs. A pair found in one look-up is right although
it does not show all bits: a code that ends within the bits shown is the code that stands there. -/

namespace ZstCodec.Huffman

open WeightTable BitCursor

variable {t : WeightTable} {b : ByteArray}

variable {c : BitCursor} {i n s u v : Nat}

/-- Every byte of a part of a text has a code. -/
def Coverable (t : WeightTable) (b : ByteArray) (i n : Nat) : Prop := ∀ k < n, t.weight (natAt b (i + k)) ≠ 0

theorem Coverable.tail (h : Coverable t b i (n + 1)) : Coverable t b (i + 1) n := fun k hk => by
  have := h (k + 1) (by omega)
  grind

theorem Coverable.head (h : Coverable t b i (n + 1)) : t.weight (natAt b i) ≠ 0 := h 0 (Nat.succ_pos n)

/-- The first byte of a text is written last. -/
theorem encodeBytes_succ (c : Code) (b : ByteArray) (i : Nat) (w : BitWriter) (n : Nat) :
    encodeBytes c b i w (n + 1) =
      (encodeBytes c b (i + 1) w n).addNat (c.values.getD (natAt b i) 0) (c.widths.getD (natAt b i) 0) := by
  induction n generalizing w with
  | zero => rfl
  | succ n ih =>
    grind [encodeBytes]

def text (t : WeightTable) (b : ByteArray) (i n : Nat) : BitWriter := encodeBytes t.code b i {} n

theorem width_le_mostBits (h : t.Full) (hs : t.weight s ≠ 0) : t.code.widths.getD s 0 ≤ BitWriter.mostBits := by
  obtain ⟨hw, -, -⟩ := width_le h hs
  rw [show t.code.width s = t.code.widths.getD s 0 from rfl] at hw
  have h1 := h.log_le
  have h2 : widthLimit = 12 := rfl
  have h3 : BitWriter.mostBits = 56 := rfl
  omega

theorem text_sound (h : t.Full) (hc : Coverable t b i n) : (text t b i n).Sound := by
  induction n generalizing i with
  | zero => exact BitWriter.sound_empty
  | succ n ih =>
    rw [text, encodeBytes_succ]
    exact (ih hc.tail).addNat _ (width_le_mostBits h hc.head)

theorem text_spec (h : t.Full) (hc : Coverable t b i (n + 1)) :
    (text t b i (n + 1)).length = (text t b (i + 1) n).length + t.code.width (natAt b i) ∧
      (text t b i (n + 1)).value = (text t b (i + 1) n).value + 2 ^ (text t b (i + 1) n).length * t.code.values.getD (natAt b i) 0 := by
  obtain ⟨-, hl, hv⟩ := BitWriter.addNat_spec (text_sound h hc.tail) (t.code.values.getD (natAt b i) 0) (width_le_mostBits h hc.head)
  have hlt := value_lt h hc.head
  rw [show t.code.width (natAt b i) = t.code.widths.getD (natAt b i) 0 from rfl] at hlt
  rw [Nat.mod_eq_of_lt hlt] at hv
  rw [show text t b i (n + 1) = _ from encodeBytes_succ t.code b i {} n]
  exact ⟨hl, hv⟩

def view (t : WeightTable) (w : BitWriter) : Nat := w.value * 2 ^ t.lookLog / 2 ^ w.length

theorem view_lt (hw : w.Sound) : view t w < 2 ^ t.lookLog := by
  simp_all [Nat.div_lt_iff_lt_mul, mul_comm, view.eq_1, BitWriter.Sound.value_lt]

theorem view_arith {x l c : Nat} (hu : u ≤ n) (hx : x < 2 ^ l) :
    (x + 2 ^ l * c) * 2 ^ n / 2 ^ (l + u) / 2 ^ (n - u) = c ∧
      (x + 2 ^ l * c) * 2 ^ n / 2 ^ (l + u) * 2 ^ u % 2 ^ n = x * 2 ^ n / 2 ^ l / 2 ^ u * 2 ^ u := by
  have hn : 2 ^ n = 2 ^ (n - u) * 2 ^ u := by rw [← pow_add, Nat.sub_add_cancel hu]
  have hview : (x + 2 ^ l * c) * 2 ^ n / 2 ^ (l + u) = c * 2 ^ (n - u) + x * 2 ^ (n - u) / 2 ^ l := by
    rw [hn, pow_add, ← mul_assoc, Nat.mul_div_mul_right _ _ (Nat.two_pow_pos u), add_mul, mul_assoc, add_comm,
      Nat.mul_add_div (Nat.two_pow_pos l)]
  have hrest : x * 2 ^ n / 2 ^ l / 2 ^ u = x * 2 ^ (n - u) / 2 ^ l := by
    rw [Nat.div_div_eq_div_mul, hn, ← mul_assoc, Nat.mul_div_mul_right _ _ (Nat.two_pow_pos u)]
  have hlt : x * 2 ^ (n - u) / 2 ^ l < 2 ^ (n - u) := by
    rw [Nat.div_lt_iff_lt_mul (Nat.two_pow_pos _), mul_comm]
    exact Nat.mul_lt_mul_of_pos_left hx (Nat.two_pow_pos _)
  rw [hview, hrest]
  refine ⟨?_, ?_⟩
  · rw [mul_comm, Nat.mul_add_div (Nat.two_pow_pos _), Nat.div_eq_of_lt hlt, add_zero]
  simp_all [add_mul, mul_assoc, Nat.mod_eq_of_lt, Nat.two_pow_pos]

theorem view_text (h : t.Full) (hc : Coverable t b i (n + 1)) :
    t.Starts (natAt b i) (view t (text t b i (n + 1))) ∧
      view t (text t b i (n + 1)) * 2 ^ t.code.width (natAt b i) % 2 ^ t.lookLog =
        view t (text t b (i + 1) n) / 2 ^ t.code.width (natAt b i) * 2 ^ t.code.width (natAt b i) := by
  obtain ⟨hl, hv⟩ := text_spec h hc
  obtain ⟨h1, h2⟩ := view_arith (c := t.code.values.getD (natAt b i) 0) (width_le h hc.head).2.2 (text_sound h hc.tail).value_lt
  rw [← hv, ← hl] at h1 h2
  exact ⟨⟨hc.head, h1⟩, h2⟩

theorem starts_unique (h : t.Full) (hs : t.Starts s v) (hs' : t.Starts s' v) :
    s.toUInt8 = s'.toUInt8 ∧ t.code.width s = t.code.width s' := by
  have h1 := lookUp_of_starts h .singly hs
  grind [lookUp_of_starts]

/-- A code that ends within the bits shown does not depend on the others. -/
theorem starts_of_shown (hs : t.Starts s (v / 2 ^ u * 2 ^ u)) (hu : u + t.code.width s ≤ t.lookLog) : t.Starts s v := by
  refine ⟨hs.1, ?_⟩
  rw [← hs.2, show t.lookLog - t.code.width s = u + (t.lookLog - t.code.width s - u) by omega, pow_add, ← Nat.div_div_eq_div_mul,
    ← Nat.div_div_eq_div_mul, Nat.mul_div_cancel _ (Nat.two_pow_pos u)]

/-! ### Reading a stream -/

theorem text_length_pos (h : t.Full) (hc : Coverable t b i (n + 1)) : 0 < (text t b i (n + 1)).length := by
  grind [text_spec, width_le, Coverable.head]

theorem lookLog_le (h : t.Full) : t.lookLog ≤ 56 := by
  have h1 := h.log_le
  have h2 : widthLimit = 12 := rfl
  exact Nat.max_le.2 ⟨by omega, by omega⟩

theorem peekHigh_text (h : t.Full) (hc : Coverable t b i (n + 1)) (hover : c.Over (text t b i (n + 1))) :
    c.peekHigh t.lookLog = view t (text t b i (n + 1)) ∧ (c.skip (t.code.width (natAt b i))).Over (text t b (i + 1) n) := by
  refine ⟨hover.peekHigh_eq (text_length_pos h hc) (lookLog_le h), ?_⟩
  rw [show text t b i (n + 1) = _ from encodeBytes_succ t.code b i {} n] at hover
  exact (hover.peek (text_sound h hc.tail) (width_le_mostBits h hc.head)).2

theorem push_slice (out : ByteArray) (hi : i + (n + 1) ≤ b.size) :
    out.push (byteAt b i) ++ slice b (i + 1) (i + 1 + n) = out ++ slice b i (i + (n + 1)) := by
  rw [← slice_append_slice (show i ≤ i + 1 by omega) (show i + 1 ≤ i + (n + 1) by omega), slice_push (show i < i + 1 by omega) (by omega),
    Nat.add_sub_cancel, slice_self, push_eq_append, push_eq_append, empty_append, ← append_assoc,
    show i + 1 + n = i + (n + 1) by omega]

section

variable (h : t.Full) (reading : Reading)

include h reading

theorem readSingly_text (hc : Coverable t b i n) (hi : i + n ≤ b.size)
    (hover : c.Over (text t b i n)) (out : ByteArray) :
    ∃ c', (t.decoder reading).readSingly c out n = (out ++ slice b i (i + n), c') ∧ c'.atEnd = true := by
  induction n generalizing i c out with
  | zero =>
    refine ⟨c, by simp [Decoder.readSingly, slice_self], ?_⟩
    rw [atEnd, hover.pos]
    rfl
  | succ n ih =>
    obtain ⟨hpeek, hskip⟩ := peekHigh_text h hc hover
    obtain ⟨c', hread, hend⟩ := ih hc.tail (by omega) hskip (out.push (byteAt b i))
    rw [Decoder.readSingly, decoder_log, show max t.log 11 = t.lookLog from rfl, hpeek,
      lookUp_of_starts h reading (view_text h hc).1, toUInt8_natAt]
    simp_all [push_slice]

theorem readLast_text (hc : Coverable t b i 1) (hi : i + 1 ≤ b.size)
    (hover : c.Over (text t b i 1)) (out : ByteArray) :
    ∃ c', (t.decoder reading).readLast c out = (out ++ slice b i (i + 1), c') ∧ c'.atEnd = true := by
  obtain ⟨hpeek, hskip⟩ := peekHigh_text h hc hover
  have hpos : c.pos = t.code.width (natAt b i) := by
    rw [hover.pos, (text_spec h hc).1]
    show ((0 + _ : Nat) : Int) = _
    rw [zero_add]
  have hout : out.push (byteAt b i) = out ++ slice b i (i + 1) := by
    rw [← push_slice out (show i + (0 + 1) ≤ b.size by omega), add_zero, slice_self, append_empty]
  rw [Decoder.readLast, decoder_log, show max t.log 11 = t.lookLog from rfl, hpeek, lookUp_of_starts h reading (view_text h hc).1,
    toUInt8_natAt]
  dsimp only
  rw [hout]
  split
  · refine ⟨_, rfl, ?_⟩
    rw [atEnd, hskip.pos]
    rfl
  · rw [if_pos (by have := (width_le h hc.head).2.1; omega)]
    simp_all [atEnd]

theorem readInPairs_text (fuel : Nat) (hc : Coverable t b i n) (hi : i + n ≤ b.size)
    (hover : c.Over (text t b i n)) (out : ByteArray) (hfuel : n ≤ fuel) :
    ∃ c', (t.decoder reading).readInPairs c out n fuel = (out ++ slice b i (i + n), c') ∧ c'.atEnd = true := by
  induction fuel generalizing i n c out with
  | zero =>
    obtain rfl : n = 0 := by omega
    refine ⟨c, by simp [Decoder.readInPairs, slice_self], ?_⟩
    rw [atEnd, hover.pos]
    rfl
  | succ fuel ih =>
    rw [Decoder.readInPairs]
    rcases n with _ | _ | n
    · refine ⟨c, by rw [if_pos rfl, add_zero, slice_self, append_empty], ?_⟩
      rw [atEnd, hover.pos]
      rfl
    · simp_all [readLast_text]
    · obtain ⟨hpeek, hskip⟩ := peekHigh_text h hc hover
      obtain ⟨hpeek', hskip'⟩ := peekHigh_text h hc.tail hskip
      obtain ⟨hfirst, hrest⟩ := view_text h hc
      rw [if_neg (by omega), if_neg (by omega), decoder_log, show max t.log 11 = t.lookLog from rfl, hpeek]
      dsimp only
      rw [lookUp_of_starts h reading hfirst, toUInt8_natAt]
      rw [hrest]
      -- the second look-up shows the rest without its last bits
      obtain ⟨s, hs⟩ := exists_starts h (v := view t (text t b (i + 1) (n + 1)) / 2 ^ t.code.width (natAt b i) *
        2 ^ t.code.width (natAt b i)) (lt_of_le_of_lt (Nat.div_mul_le_self _ _) (view_lt (text_sound h hc.tail)))
      rw [lookUp_of_starts h reading hs]
      split
      · obtain ⟨c', hread, hend⟩ := ih hc.tail (by omega) hskip (out.push (byteAt b i)) (by omega)
        simp_all [push_slice]
      · obtain ⟨hsame, hwidth⟩ := starts_unique h (starts_of_shown hs (by omega)) (view_text h hc.tail).1
        obtain ⟨c', hread, hend⟩ := ih hc.tail.tail (by omega) hskip' ((out.push (byteAt b i)).push (byteAt b (i + 1))) (by omega)
        refine ⟨c', ?_, hend⟩
        have hboth : c.skip (t.code.width (natAt b i) + t.code.width s) =
            (c.skip (t.code.width (natAt b i))).skip (t.code.width (natAt b (i + 1))) := by
          rw [hwidth, skip, skip, skip]
          congr 1
          push_cast
          omega
        rw [hsame, toUInt8_natAt, hboth, show n + 1 + 1 - 2 = n by omega, hread, push_slice _ (by omega), push_slice out hi]

theorem stream_encodeOne (hc : Coverable t b i n) (hi : i + n ≤ b.size) (out : ByteArray) :
    (t.decoder reading).stream (encodeOne t.code b i n) n out = .ok (out ++ slice b i (i + n)) := by
  obtain ⟨c, hstart, hover⟩ := start_close (text_sound h hc)
  rw [Decoder.stream, show encodeOne t.code b i n = (text t b i n).close from rfl, hstart]
  simp only [bind, Except.bind]
  rw [show (t.decoder reading).reading = reading from rfl]
  cases reading with
  | singly =>
    obtain ⟨c', hread, hend⟩ := readSingly_text h .singly hc hi hover out
    rw [hread]
    rw [hend, if_pos rfl]
    rfl
  | inPairs =>
    obtain ⟨c', hread, hend⟩ := readInPairs_text h .inPairs n hc hi hover out (le_refl n)
    rw [hread]
    rw [hend, if_pos rfl]
    rfl

end

/-! ### Four streams -/

theorem size_encodeOne_pos (h : t.Full) (hc : Coverable t b i n) : 0 < (encodeOne t.code b i n).size := by
  rw [show encodeOne t.code b i n = (text t b i n).close from rfl, (BitWriter.close_spec (text_sound h hc)).2]
  omega

theorem Coverable.part (h : Coverable t b i n) (h1 : i ≤ j) (h2 : j + m ≤ i + n) : Coverable t b j m := fun k hk => by
  have := h (j - i + k) (by omega)
  grind

theorem fourHead (h1 : l1 < 65536) (h2 : l2 < 65536) (h3 : l3 < 65536) (rest : ByteArray) :
    let head := putLe (putLe (putLe .empty l1 2) l2 2) l3 2
    head.size = 6 ∧ le16 (head ++ rest) 0 = l1 ∧ le16 (head ++ rest) 2 = l2 ∧ le16 (head ++ rest) 4 = l3 := by
  intro head
  have hs : ∀ v, (putLe .empty v 2).size = 2 := fun v => size_putLe _ _ _
  have hhead : head = putLe .empty l1 2 ++ (putLe .empty l2 2 ++ putLe .empty l3 2) := by
    show putLe (putLe (putLe .empty l1 2) l2 2) l3 2 = _
    rw [putLe_eq_append, putLe_eq_append (putLe .empty l1 2), append_assoc]
  have hsize : head.size = 6 := by rw [hhead, size_append, size_append, hs, hs, hs]
  refine ⟨hsize, ?_, ?_, ?_⟩
  · simp_all [le16_append_left, le16_putLe]
  · have hsecond := le16_append_right (putLe .empty l1 2) (putLe .empty l2 2 ++ putLe .empty l3 2) 0
    simp_all [le16_append_left, le16_putLe]
  · have hsecond := le16_append_right (putLe .empty l1 2) (putLe .empty l2 2 ++ putLe .empty l3 2) 2
    have hthird := le16_append_right (putLe .empty l2 2) (putLe .empty l3 2) 0
    simp_all [le16_append_left, le16_putLe]

theorem fourStreams_encodeFour (h : t.Full) (reading : Reading) (hc : Coverable t b 0 b.size) {bytes : ByteArray}
    (hb : encodeFour t.code b = some bytes) : (t.decoder reading).fourStreams bytes b.size = .ok b := by
  unfold encodeFour at hb
  dsimp only at hb
  split at hb
  case isTrue => exact nomatch hb
  split at hb
  case isTrue => exact nomatch hb
  obtain rfl := Option.some.inj hb
  have hpart : 3 * ((b.size + 3) / 4) ≤ b.size := by omega
  have c1 : Coverable t b 0 ((b.size + 3) / 4) := hc.part (le_refl 0) (by omega)
  have c2 : Coverable t b ((b.size + 3) / 4) ((b.size + 3) / 4) := hc.part (Nat.zero_le _) (by omega)
  have c3 : Coverable t b (2 * ((b.size + 3) / 4)) ((b.size + 3) / 4) := hc.part (Nat.zero_le _) (by omega)
  have c4 : Coverable t b (3 * ((b.size + 3) / 4)) (b.size - 3 * ((b.size + 3) / 4)) := hc.part (Nat.zero_le _) (by omega)
  have p1 := size_encodeOne_pos h c1
  have p2 := size_encodeOne_pos h c2
  have p3 := size_encodeOne_pos h c3
  have p4 := size_encodeOne_pos h c4
  have r1 := stream_encodeOne h reading c1 (by omega) .empty
  have r2 := stream_encodeOne h reading c2 (by omega) (slice b 0 ((b.size + 3) / 4))
  have r3 := stream_encodeOne h reading c3 (by omega) (slice b 0 (2 * ((b.size + 3) / 4)))
  have r4 := stream_encodeOne h reading c4 (by omega) (slice b 0 (3 * ((b.size + 3) / 4)))
  rw [zero_add, empty_append] at r1
  rw [slice_append_slice (by omega) (by omega), ← Nat.two_mul] at r2
  rw [slice_append_slice (by omega) (by omega), ← Nat.succ_mul] at r3
  rw [slice_append_slice (by omega) (by omega), Nat.add_sub_cancel' hpart, slice_all] at r4
  generalize encodeOne t.code b 0 ((b.size + 3) / 4) = s1 at *
  generalize encodeOne t.code b ((b.size + 3) / 4) ((b.size + 3) / 4) = s2 at *
  generalize encodeOne t.code b (2 * ((b.size + 3) / 4)) ((b.size + 3) / 4) = s3 at *
  generalize encodeOne t.code b (3 * ((b.size + 3) / 4)) (b.size - 3 * ((b.size + 3) / 4)) = s4 at *
  obtain ⟨hhead, l1, l2, l3⟩ := fourHead (show s1.size < 65536 by omega) (show s2.size < 65536 by omega) (show s3.size < 65536 by omega)
    (s1 ++ s2 ++ s3 ++ s4)
  generalize putLe (putLe (putLe .empty s1.size 2) s2.size 2) s3.size 2 = head at *
  have e1 := slice_middle head s1 (s2 ++ s3 ++ s4)
  have e2 := slice_middle (head ++ s1) s2 (s3 ++ s4)
  have e3 := slice_middle (head ++ s1 ++ s2) s3 s4
  have e4 := slice_append_right (head ++ s1 ++ s2 ++ s3) s4
  simp only [← append_assoc] at l1 l2 l3 e1 e2 e3 e4
  simp only [size_append, hhead] at e1 e2 e3 e4
  have hsize : (head ++ s1 ++ s2 ++ s3 ++ s4).size = 6 + s1.size + s2.size + s3.size + s4.size := by
    simp only [size_append, hhead]
  unfold Decoder.fourStreams
  simp only [bind, Except.bind]
  grind

end ZstCodec.Huffman
