import ZstCodec.Proofs.Bytes
import ZstCodec.Bits.Writer
import ZstCodec.Bits.Cursor

/-! # Bits written and read back

A byte string is a number, its lowest byte first, and a field of bits is a part of that number. A cursor over what a
writer has written reads the field added last, and then stands over what was written before it. So a reader undoes a
writer step by step (`BitCursor.Over`). -/

namespace ZstCodec

variable {a b : ByteArray}

variable {n v : Nat}

/-! ### The number of a byte string -/

/-- A byte string as a number, lowest byte first. -/
def number (b : ByteArray) : Nat := b.data.toList.foldr (fun v n => v.toNat + 256 * n) 0

@[simp] theorem number_empty : number .empty = 0 := rfl

theorem foldr_append_number (xs ys : List UInt8) :
    (xs ++ ys).foldr (fun v n => v.toNat + 256 * n) 0 =
      xs.foldr (fun v n => v.toNat + 256 * n) 0 + 256 ^ xs.length * ys.foldr (fun v n => v.toNat + 256 * n) 0 := by
  induction xs with
  | nil => simp
  | cons x xs ih =>
    grind

theorem number_append (a b : ByteArray) : number (a ++ b) = number a + 256 ^ a.size * number b := by
  unfold number
  rw [ByteArray.data_append, Array.toList_append, foldr_append_number]
  rfl

theorem number_push (b : ByteArray) (v : UInt8) : number (b.push v) = number b + 256 ^ b.size * v.toNat := by
  rw [push_eq_append, number_append]
  simp [number]

theorem number_lt (b : ByteArray) : number b < 256 ^ b.size := by
  have h (xs : List UInt8) : xs.foldr (fun v n => v.toNat + 256 * n) 0 < 256 ^ xs.length := by
    induction xs with
    | nil => simp
    | cons x xs ih =>
      have := x.toNat_lt
      grind
  exact h b.data.toList

theorem number_div_lt (h : b.size ≤ i) : number b / 256 ^ i = 0 :=
  Nat.div_eq_of_lt (lt_of_lt_of_le (number_lt b) (Nat.pow_le_pow_right (by omega) h))

theorem natAt_eq_number (b : ByteArray) (i : Nat) : natAt b i = number b / 256 ^ i % 256 := by
  rcases lt_or_ge i b.size with h | h
  · have hsplit : b = slice b 0 i ++ ((ByteArray.empty.push (byteAt b i)) ++ slice b (i + 1) b.size) := by
      have h1 : slice b i (i + 1) = ByteArray.empty.push (byteAt b i) := by
        rw [slice_push (by omega) (by omega), Nat.add_sub_cancel, slice_self]
      rw [← h1, slice_append_slice (by omega) (by omega), slice_append_slice (by omega) (by omega), slice_all]
    have hsize : (slice b 0 i).size = i := by
      rw [size_slice]
      omega
    have hlow : number (slice b 0 i) < 256 ^ i := by
      have := number_lt (slice b 0 i)
      rwa [hsize] at this
    conv_rhs => rw [hsplit, number_append, hsize, number_append, number_push]
    have hone : (ByteArray.empty.push (byteAt b i)).size = 1 := by simp
    grind [Nat.add_mul_div_left, Nat.div_eq_of_lt, natAt_lt, natAt, number_empty, size_empty]
  · rw [natAt_of_ge h, number_div_lt h]

theorem le32_eq_number (b : ByteArray) (i : Nat) : le32 b i = number b / 256 ^ i % 2 ^ 32 := by
  have h (k : Nat) : natAt b (i + k) = number b / (256 ^ i * 256 ^ k) % 256 := by
    rw [natAt_eq_number, pow_add]
  have h0 := h 0
  rw [le32_eq, show (2 : Nat) ^ 32 = 256 * (256 * (256 * 256)) by norm_num, Nat.mod_mul, Nat.mod_mul, Nat.mod_mul,
    Nat.div_div_eq_div_mul, Nat.div_div_eq_div_mul, Nat.div_div_eq_div_mul]
  grind

theorem word64_eq_number (b : ByteArray) (i : Nat) : (word64 b i).toNat = number b / 256 ^ i % 2 ^ 64 := by
  rw [word64_toNat, le32_eq_number, le32_eq_number, show (2 : Nat) ^ 64 = 2 ^ 32 * 2 ^ 32 by norm_num, Nat.mod_mul,
    Nat.div_div_eq_div_mul, pow_add, show (256 : Nat) ^ 4 = 2 ^ 32 by norm_num]

/-! ### Writing -/

theorem toNat_mask {n : UInt64} (hn : n.toNat < 64) : ((1 <<< n) - 1 : UInt64).toNat = 2 ^ n.toNat - 1 := by
  have hp : 2 ^ n.toNat < 2 ^ 64 := Nat.pow_lt_pow_right (by omega) hn
  have h1 : (1 <<< n : UInt64).toNat = 2 ^ n.toNat := by
    rw [UInt64.toNat_shiftLeft, Nat.mod_eq_of_lt hn, UInt64.toNat_one, Nat.shiftLeft_eq, one_mul, Nat.mod_eq_of_lt hp]
  grind [UInt64.toNat_sub_of_le, UInt64.le_iff_toNat_le]

theorem toNat_and_mask (v : UInt64) {n : UInt64} (hn : n.toNat < 64) :
    (v &&& ((1 <<< n) - 1)).toNat = v.toNat % 2 ^ n.toNat := by
  simp_all [toNat_mask]

namespace BitWriter

variable {w : BitWriter}

def length (w : BitWriter) : Nat := 8 * w.out.size + w.count.toNat

def value (w : BitWriter) : Nat := number w.out + 2 ^ (8 * w.out.size) * w.bits.toNat

/-- Less than a byte waits. -/
structure Sound (w : BitWriter) : Prop where
  count_lt : w.count.toNat < 8
  bits_lt : w.bits.toNat < 2 ^ w.count.toNat

theorem sound_empty : Sound {} := ⟨by decide, by decide⟩

@[simp] theorem length_empty : length {} = 0 := rfl

theorem pow_size (b : ByteArray) : 256 ^ b.size = 2 ^ (8 * b.size) := by
  rw [Nat.pow_mul]

theorem Sound.value_lt (h : w.Sound) : w.value < 2 ^ w.length := by
  have h1 := number_lt w.out
  rw [pow_size] at h1
  have h2 := Nat.mul_le_mul_left (2 ^ (8 * w.out.size)) (show w.bits.toNat + 1 ≤ 2 ^ w.count.toNat from h.bits_lt)
  rw [value, length, pow_add]
  grind

/-- Moving whole bytes out changes neither the bits nor their number. -/
theorem drain_spec (n : Nat) :
    ∀ (out : ByteArray) (bits count : UInt64), count.toNat < 8 * n + 8 → bits.toNat < 2 ^ count.toNat →
      (drain out bits count n).Sound ∧ (drain out bits count n).length = 8 * out.size + count.toNat ∧
        (drain out bits count n).value = number out + 2 ^ (8 * out.size) * bits.toNat := by
  induction n with
  | zero => exact fun out bits count hc hb => ⟨⟨by simpa [drain] using hc, hb⟩, rfl, rfl⟩
  | succ n ih =>
    intro out bits count hc hb
    rw [drain]
    by_cases h : count < 8
    · rw [if_pos h]
      exact ⟨⟨UInt64.lt_iff_toNat_lt.1 h, hb⟩, rfl, rfl⟩
    have h8 : 8 ≤ count.toNat := by
      rw [UInt64.lt_iff_toNat_lt, show (8 : UInt64).toNat = 8 from rfl] at h
      omega
    have hcount : (count - 8).toNat = count.toNat - 8 := UInt64.toNat_sub_of_le _ _ (UInt64.le_iff_toNat_le.2 h8)
    have hbits : (bits >>> 8).toNat = bits.toNat / 256 := by
      rw [UInt64.toNat_shiftRight, show (8 : UInt64).toNat % 64 = 8 from rfl, Nat.shiftRight_eq_div_pow]
    have hlow : bits.toUInt8.toNat = bits.toNat % 256 := by
      rw [UInt64.toNat_toUInt8]
    have hpow : 2 ^ count.toNat = 256 * 2 ^ (count.toNat - 8) := by
      rw [show (256 : Nat) = 2 ^ 8 by norm_num, ← pow_add]
      congr 1
      omega
    grind [size_push, number_push, pow_size, Nat.mod_add_div]

def mostBits : Nat := 56

theorem add_spec (h : w.Sound) (v : UInt64) {n : UInt64} (hn : n.toNat ≤ mostBits) :
    (w.add v n).Sound ∧ (w.add v n).length = w.length + n.toNat ∧
      (w.add v n).value = w.value + 2 ^ w.length * (v.toNat % 2 ^ n.toNat) := by
  have hmost : mostBits = 56 := rfl
  have hc := h.count_lt
  have hcount : (w.count + n).toNat = w.count.toNat + n.toNat := by
    rw [UInt64.toNat_add]
    omega
  have hfield := toNat_and_mask v (n := n) (by omega)
  have hlt : v.toNat % 2 ^ n.toNat < 2 ^ n.toNat := Nat.mod_lt _ (Nat.two_pow_pos _)
  have hshift : ((v &&& ((1 <<< n) - 1)) <<< w.count).toNat = (v.toNat % 2 ^ n.toNat) <<< w.count.toNat := by
    rw [UInt64.toNat_shiftLeft, hfield, Nat.mod_eq_of_lt (show w.count.toNat < 64 by omega), Nat.mod_eq_of_lt]
    rw [Nat.shiftLeft_eq]
    calc v.toNat % 2 ^ n.toNat * 2 ^ w.count.toNat < 2 ^ n.toNat * 2 ^ w.count.toNat :=
          Nat.mul_lt_mul_of_pos_right hlt (Nat.two_pow_pos _)
      _ = 2 ^ (n.toNat + w.count.toNat) := (pow_add _ _ _).symm
      _ ≤ 2 ^ 64 := Nat.pow_le_pow_right (by omega) (by omega)
  have hbits : (w.bits ||| ((v &&& ((1 <<< n) - 1)) <<< w.count)).toNat =
      w.bits.toNat + v.toNat % 2 ^ n.toNat * 2 ^ w.count.toNat := by
    rw [UInt64.toNat_or, hshift, or_shiftLeft_eq_add _ h.bits_lt]
  have hfit : w.bits.toNat + v.toNat % 2 ^ n.toNat * 2 ^ w.count.toNat < 2 ^ (w.count.toNat + n.toNat) := by
    have h1 := h.bits_lt
    have h2 := Nat.mul_le_mul_right (2 ^ w.count.toNat) (show v.toNat % 2 ^ n.toNat + 1 ≤ 2 ^ n.toNat from hlt)
    rw [add_mul, one_mul] at h2
    rw [pow_add, mul_comm (2 ^ w.count.toNat)]
    omega
  obtain ⟨h1, h2, h3⟩ := drain_spec 8 w.out (w.bits ||| ((v &&& ((1 <<< n) - 1)) <<< w.count)) (w.count + n) (by omega)
    (by rw [hbits, hcount]; exact hfit)
  refine ⟨h1, ?_, ?_⟩
  · show (drain _ _ _ _).length = _
    rw [h2, hcount, length, add_assoc]
  · show (drain _ _ _ _).value = _
    grind [value.eq_1, length.eq_1]

theorem addNat_spec (h : w.Sound) (v : Nat) (hn : n ≤ mostBits) :
    (w.addNat v n).Sound ∧ (w.addNat v n).length = w.length + n ∧
      (w.addNat v n).value = w.value + 2 ^ w.length * (v % 2 ^ n) := by
  have hmost : mostBits = 56 := rfl
  have hn' : n.toUInt64.toNat = n := by
    rw [Nat.toUInt64_eq, UInt64.toNat_ofNat']
    omega
  obtain ⟨h1, h2, h3⟩ := add_spec h v.toUInt64 (n := n.toUInt64) (by rwa [hn'])
  rw [hn'] at h2 h3
  refine ⟨h1, h2, ?_⟩
  show (w.add _ _).value = _
  rw [h3, Nat.toUInt64_eq, UInt64.toNat_ofNat', Nat.mod_mod_of_dvd _ (Nat.pow_dvd_pow 2 (by omega))]

theorem Sound.addNat (h : w.Sound) (v : Nat) (hn : n ≤ mostBits) : (w.addNat v n).Sound := (addNat_spec h v hn).1

theorem length_addNat (h : w.Sound) (v : Nat) (hn : n ≤ mostBits) : (w.addNat v n).length = w.length + n :=
  (addNat_spec h v hn).2.1

theorem flush_spec (h : w.Sound) : number w.flush = w.value ∧ w.flush.size = (w.length + 7) / 8 := by
  have hc := h.count_lt
  unfold flush value length
  by_cases h0 : (w.count == 0) = true
  · have hz : w.count.toNat = 0 := by
      rw [beq_iff_eq] at h0
      rw [h0]
      rfl
    have hb := h.bits_lt
    grind
  · have hz : w.count.toNat ≠ 0 := by
      intro hz
      exact h0 (beq_iff_eq.2 (UInt64.toNat_inj.1 hz))
    have hp : 2 ^ w.count.toNat ≤ 2 ^ 8 := Nat.pow_le_pow_right (by omega) (by omega)
    have hb : w.bits.toNat < 256 := lt_of_lt_of_le h.bits_lt hp
    rw [if_neg h0, number_push, size_push, UInt64.toNat_toUInt8, Nat.mod_eq_of_lt hb, pow_size]
    exact ⟨rfl, by omega⟩

/-- The final mark stands above all bits. -/
theorem close_spec (h : w.Sound) : number w.close = w.value + 2 ^ w.length ∧ w.close.size = w.length / 8 + 1 := by
  obtain ⟨h1, h2, h3⟩ := add_spec h 1 (n := 1) (by decide)
  obtain ⟨h4, h5⟩ := flush_spec h1
  grind [close]

/-- The byte string starts with what the writer has written. -/
structure Opens (w : BitWriter) (b : ByteArray) : Prop where
  sound : w.Sound
  le : w.length ≤ 8 * b.size
  value : number b % 2 ^ w.length = w.value

theorem opens_flush (h : w.Sound) (rest : ByteArray) : w.Opens (w.flush ++ rest) := by
  obtain ⟨hv, hs⟩ := flush_spec h
  refine ⟨h, by rw [size_append]; omega, ?_⟩
  obtain ⟨n, hn⟩ : ∃ n, 8 * w.flush.size = w.length + n := ⟨8 * w.flush.size - w.length, by omega⟩
  rw [number_append, hv, pow_size, hn, pow_add, mul_assoc, Nat.add_mul_mod_self_left, Nat.mod_eq_of_lt h.value_lt]

/-- What is added later leaves the bits before it. -/
theorem Opens.prior (hw : w.Sound) (hn : n ≤ mostBits) (h : (w.addNat v n).Opens b) :
    w.Opens b ∧ number b / 2 ^ w.length % 2 ^ n = v % 2 ^ n ∧ w.length + n ≤ 8 * b.size := by
  obtain ⟨-, hl, hv⟩ := addNat_spec hw v hn
  have hlt := hw.value_lt
  have hle := h.le
  have hval := h.value
  rw [hl, hv] at hval
  rw [hl] at hle
  refine ⟨⟨hw, by omega, ?_⟩, ?_, hle⟩
  · rw [← Nat.mod_mul_right_mod _ (2 ^ w.length) (2 ^ n), ← pow_add, hval, Nat.add_mul_mod_self_left, Nat.mod_eq_of_lt hlt]
  · rw [← Nat.mod_mul_right_div_self, ← pow_add, hval, Nat.add_mul_div_left _ _ (Nat.two_pow_pos _), Nat.div_eq_of_lt hlt,
      zero_add]

end BitWriter

/-! ### Reading -/

namespace BitCursor

open BitWriter

theorem field_eq (b : ByteArray) (hn : n ≤ 56) : (field b lo n).toNat = number b / 2 ^ lo % 2 ^ n := by
  have hn' : n.toUInt64.toNat = n := by
    rw [Nat.toUInt64_eq, UInt64.toNat_ofNat']
    omega
  have hs : (lo % 8).toUInt64.toNat = lo % 8 := by
    rw [Nat.toUInt64_eq, UInt64.toNat_ofNat']
    omega
  have hsplit : 2 ^ 64 = 2 ^ (lo % 8) * (2 ^ n * 2 ^ (64 - lo % 8 - n)) := by
    rw [← pow_add, ← pow_add]
    congr 1
    omega
  have hlo : 256 ^ (lo / 8) * 2 ^ (lo % 8) = 2 ^ lo := by
    rw [show (256 : Nat) = 2 ^ 8 by norm_num, ← pow_mul, ← pow_add]
    congr 1
    omega
  grind [field, toNat_and_mask, UInt64.toNat_shiftRight, Nat.shiftRight_eq_div_pow, word64_eq_number, Nat.mod_mul_right_div_self, Nat.div_div_eq_div_mul, Nat.mod_mul_right_mod]

/-- The cursor stands over what the writer has written. -/
structure Over (c : BitCursor) (w : BitWriter) : Prop where
  sound : w.Sound
  first : c.first = word64 c.bytes 0
  pos : c.pos = w.length
  value : number c.bytes % 2 ^ w.length = w.value

variable {c : BitCursor} {w : BitWriter}

/-- A stream that was closed is read from below its mark. -/
theorem start_close (h : w.Sound) : ∃ c, start w.close = .ok c ∧ c.Over w := by
  obtain ⟨hv, hs⟩ := close_spec h
  have hlt := h.value_lt
  have hc := h.count_lt
  have hlen : w.length / 8 = w.out.size ∧ w.length % 8 = w.count.toNat := by
    unfold length
    omega
  have hlast : natAt w.close (w.close.size - 1) = w.bits.toNat + 2 ^ w.count.toNat := by
    have h8 : w.count.toNat ≤ 7 := by omega
    have hp : 2 ^ w.count.toNat ≤ 2 ^ 7 := Nat.pow_le_pow_right (by omega) h8
    have hb := h.bits_lt
    have hn := number_lt w.out
    rw [natAt_eq_number, hv, hs, hlen.1, Nat.add_sub_cancel, BitWriter.value, length, pow_size, pow_add, add_assoc,
      ← mul_add, Nat.add_mul_div_left _ _ (Nat.two_pow_pos _)]
    rw [pow_size] at hn
    rw [Nat.div_eq_of_lt hn]
    omega
  have hhigh : highBit (w.bits.toNat + 2 ^ w.count.toNat) = w.count.toNat := by
    have hb := h.bits_lt
    rw [highBit, Nat.log2_eq_iff (by omega), pow_succ]
    omega
  refine ⟨{ bytes := w.close, first := word64 w.close 0, pos := w.length }, ?_, h, rfl, rfl, ?_⟩
  · unfold start
    grind
  simp_all [Nat.mod_eq_of_lt]

theorem Over.of_length (h : c.Over w) (hs : w'.Sound) (hl : w.length = w'.length + n)
    (hv : w.value % 2 ^ w'.length = w'.value) : (c.skip n).Over w' where
  sound := hs
  first := h.first
  pos := by
    show c.pos - n = _
    rw [h.pos, hl]
    omega
  value := by
    show number c.bytes % _ = _
    rw [← hv, ← h.value, hl, pow_add, Nat.mod_mul_right_mod]

theorem Over.field (h : c.Over w) (hn : n ≤ w.length) (h56 : n ≤ 56) :
    (field c.bytes (c.pos.toNat - n) n).toNat = w.value / 2 ^ (w.length - n) := by
  have hpos : c.pos.toNat = w.length := by
    rw [h.pos]
    rfl
  have hsplit : 2 ^ w.length = 2 ^ (w.length - n) * 2 ^ n := by
    rw [← pow_add]
    congr 1
    omega
  grind [field_eq, Nat.mod_mul_right_div_self, value]

section

variable (hw : w.Sound) (h : c.Over (w.addNat v n)) (hn : n ≤ mostBits)

include hw h hn

/-- The field added last is read first. -/
theorem Over.top :
    (w.addNat v n).value / 2 ^ ((w.addNat v n).length - n) = v % 2 ^ n ∧ (c.skip n).Over w := by
  obtain ⟨-, hl, hv⟩ := addNat_spec hw v hn
  have hlt := hw.value_lt
  refine ⟨?_, h.of_length hw hl ?_⟩
  · simp_all [Nat.add_mul_div_left]
  simp_all [Nat.mod_eq_of_lt]

theorem Over.peek :
    c.peek n = v % 2 ^ n ∧ (c.skip n).Over w := by
  have hl := length_addNat hw v hn
  obtain ⟨h1, h2⟩ := h.top hw hn
  refine ⟨?_, h2⟩
  rw [BitCursor.peek, if_pos (by rw [h.pos]; omega), h.field (by omega) hn, h1]

theorem Over.peekHigh :
    c.peekHigh n = v % 2 ^ n ∧ (c.skip n).Over w := by
  have hl := length_addNat hw v hn
  obtain ⟨h1, h2⟩ := h.top hw hn
  refine ⟨?_, h2⟩
  rw [BitCursor.peekHigh, if_pos (by rw [h.pos]; omega), h.field (by omega) hn, h1]

end

/-- A look ahead of `n` bits is filled up with zeros past the start. -/
theorem Over.peekHigh_eq (h : c.Over w) (hpos : 0 < w.length) (hn : n ≤ 56) :
    c.peekHigh n = w.value * 2 ^ n / 2 ^ w.length := by
  have hc : c.pos = w.length := h.pos
  unfold BitCursor.peekHigh
  by_cases hle : (n : Int) ≤ c.pos
  · have hsplit : 2 ^ w.length = 2 ^ n * 2 ^ (w.length - n) := by
      rw [← pow_add]
      congr 1
      omega
    rw [if_pos hle, h.field (by omega) hn, hsplit, mul_comm w.value, Nat.mul_div_mul_left _ _ (Nat.two_pow_pos _)]
  · rw [if_neg hle, h.first]
    have hshift : ((-c.pos).emod 64).toNat = 64 - w.length := by
      rw [hc]
      show ((-(w.length : Int)) % 64).toNat = _
      omega
    have h1 : (64 - w.length).toUInt64.toNat = 64 - w.length := by
      rw [Nat.toUInt64_eq, UInt64.toNat_ofNat']
      omega
    have h2 : (64 - n).toUInt64.toNat = 64 - n := by
      rw [Nat.toUInt64_eq, UInt64.toNat_ofNat']
      omega
    have hword : (word64 c.bytes 0).toNat % 2 ^ w.length = w.value := by
      rw [word64_eq_number, pow_zero, Nat.div_one, Nat.mod_mod_of_dvd _ (Nat.pow_dvd_pow 2 (by omega)), h.value]
    have hleft : (word64 c.bytes 0 <<< (64 - w.length).toUInt64).toNat = w.value * 2 ^ (64 - w.length) := by
      have h64 : 2 ^ 64 = 2 ^ w.length * 2 ^ (64 - w.length) := by
        rw [← pow_add]
        congr 1
        omega
      rw [UInt64.toNat_shiftLeft, h1, Nat.mod_eq_of_lt (show 64 - w.length < 64 by omega), Nat.shiftLeft_eq, h64,
        Nat.mul_mod_mul_right, hword]
    rw [hshift, UInt64.toNat_shiftRight, h2, hleft]
    rcases Nat.eq_zero_or_pos n with rfl | hnpos
    · omega
    rw [Nat.mod_eq_of_lt (show 64 - n < 64 by omega), Nat.shiftRight_eq_div_pow]
    have e1 : w.value * 2 ^ (64 - w.length) = w.value * 2 ^ (n - w.length) * 2 ^ (64 - n) := by
      rw [mul_assoc, ← pow_add]
      congr 2
      omega
    have e2 : w.value * 2 ^ n = w.value * 2 ^ (n - w.length) * 2 ^ w.length := by
      rw [mul_assoc, ← pow_add]
      congr 2
      omega
    simp_all

end BitCursor

end ZstCodec
