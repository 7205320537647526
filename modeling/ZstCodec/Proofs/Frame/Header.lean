import ZstCodec.Proofs.Bytes
import ZstCodec.Frame.Header

/-! # Frame headers read back

What a description says is what a reader finds in the header written for it, in either format and whatever follows the
header (`read_write`). -/

namespace ZstCodec.Frame

variable {k n v : Nat}

/-! ### Fields -/

theorem fieldAt_append_right (a b : ByteArray) (i n : Nat) : fieldAt (a ++ b) (a.size + i) n = fieldAt b i n := by
  induction n generalizing i with
  | zero => rfl
  | succ n ih => rw [fieldAt, fieldAt, natAt_append_right, add_assoc, ih]

theorem fieldAt_append (a b : ByteArray) (n : Nat) : fieldAt (a ++ b) a.size n = fieldAt b 0 n := by
  have := fieldAt_append_right a b 0 n
  rwa [add_zero] at this

theorem fieldAt_putLe (v n m : Nat) (h : m ≤ n) (rest : ByteArray) : fieldAt (putLe .empty v n ++ rest) (n - m) m = v / 256 ^ (n - m) % 256 ^ m := by
  induction m with
  | zero => rw [fieldAt, pow_zero, Nat.mod_one]
  | succ m ih =>
    grind [fieldAt, natAt_putLe_append, Nat.div_div_eq_div_mul, Nat.mod_mul]

theorem fieldAt_putLe_self (h : v < 256 ^ n) (rest : ByteArray) : fieldAt (putLe .empty v n ++ rest) 0 n = v := by
  have := fieldAt_putLe v n n (le_refl n) rest
  simp_all [Nat.mod_eq_of_lt]

theorem natAt_eq_fieldAt (b : ByteArray) (i : Nat) : natAt b i = fieldAt b i 1 := by rw [fieldAt, fieldAt, mul_zero, add_zero]

theorem le16_eq_fieldAt (b : ByteArray) (i : Nat) : le16 b i = fieldAt b i 2 := by rw [le16, fieldAt, ← natAt_eq_fieldAt]

theorem push_eq_putLe (a : ByteArray) : a.push v.toUInt8 = a ++ putLe .empty v 1 := by
  grind [push_eq_append, putLe, empty_append, UInt8.toNat_inj, UInt8.toNat_ofNat']

theorem le32_putLe (h : v < 2 ^ 32) (rest : ByteArray) : le32 (putLe .empty v 4 ++ rest) 0 = v := by
  grind [le32_eq, natAt_putLe_append]

/-! ### Descriptions -/

namespace Description

variable {d : Description}

/-- A description whose fields have room for what they say. -/
structure Fits (d : Description) : Prop where
  le_windowLog : windowLogMin ≤ d.windowLog
  windowLog_le : d.windowLog ≤ windowLogMax
  dictId_lt : d.dictId < 2 ^ 32
  contentSize_lt : ∀ n, d.contentSize = some n → n < unknownSize

def header (d : Description) : Header :=
  { contentSize := d.contentSize
    windowSize := if d.singleSegment then d.contentSize.getD unknownSize else 2 ^ d.windowLog
    dictId := d.dictId
    checksum := d.checksum
    size := d.write.size }

theorem windowSize_header (d : Description) :
    d.header.windowSize = 2 ^ d.windowLog ∨ ∃ n, d.contentSize = some n ∧ d.header.windowSize = n ∧ n ≤ 2 ^ d.windowLog := by
  unfold header singleSegment
  grind

def markPart (d : Description) : ByteArray := if d.format = .marked then putLe .empty mark 4 else .empty

def windowPart (d : Description) : ByteArray :=
  if d.singleSegment then .empty else putLe .empty (8 * (d.windowLog - windowLogMin)) 1

def dictIdPart (d : Description) : ByteArray := putLe .empty d.dictId (dictIdWidth d.dictIdCode)

def contentPart (d : Description) : ByteArray :=
  match d.contentSize with
  | none => .empty
  | some n =>
    if d.contentCode = 0 then if d.singleSegment then putLe .empty n 1 else .empty
    else if d.contentCode = 1 then putLe .empty (n - 256) 2
    else putLe .empty n (contentWidth d.contentCode)

/-- The header is its fields, one after the other. -/
theorem write_eq (d : Description) :
    d.write = d.markPart ++ (putLe .empty d.descriptor 1 ++ (d.windowPart ++ (d.dictIdPart ++ d.contentPart))) := by
  unfold write
  dsimp only
  rw [show (if d.format = .marked then putLe .empty mark 4 else .empty) = d.markPart from rfl, push_eq_putLe]
  have hwindow : (if d.singleSegment = true then d.markPart ++ putLe .empty d.descriptor 1
      else (d.markPart ++ putLe .empty d.descriptor 1).push (8 * (d.windowLog - windowLogMin)).toUInt8) =
      d.markPart ++ putLe .empty d.descriptor 1 ++ d.windowPart := by
    unfold windowPart
    split
    · rw [append_empty]
    · rw [push_eq_putLe]
  rw [hwindow, putLe_eq_append, show putLe .empty d.dictId (dictIdWidth d.dictIdCode) = d.dictIdPart from rfl]
  have hassoc : d.markPart ++ (putLe .empty d.descriptor 1 ++ (d.windowPart ++ (d.dictIdPart ++ d.contentPart))) =
      d.markPart ++ putLe .empty d.descriptor 1 ++ d.windowPart ++ d.dictIdPart ++ d.contentPart := by
    simp only [append_assoc]
  grind [contentPart, push_eq_putLe, append_empty, putLe_eq_append]

theorem singleSegment_of_small (h : d.Fits) (hn : d.contentSize = some n) (hsmall : n < 256) : d.singleSegment = true := by
  have hpow : 2 ^ windowLogMin ≤ 2 ^ d.windowLog := Nat.pow_le_pow_right (by omega) h.le_windowLog
  have hmin : 2 ^ windowLogMin = 1024 := rfl
  rw [singleSegment, hn]
  exact decide_eq_true (by omega)

theorem dictIdCode_le (d : Description) : d.dictIdCode ≤ 3 := by
  grind [dictIdCode]

theorem contentCode_le (d : Description) : d.contentCode ≤ 3 := by
  grind [contentCode]

theorem descriptor_spec (d : Description) :
    d.descriptor < 256 ∧ d.descriptor % 4 = d.dictIdCode ∧ d.descriptor / 4 % 2 = (if d.checksum then 1 else 0) ∧ d.descriptor / 8 % 2 = 0 ∧
      d.descriptor / 32 % 2 = (if d.singleSegment then 1 else 0) ∧ d.descriptor / 64 = d.contentCode := by
  have h1 := d.dictIdCode_le
  have h2 := d.contentCode_le
  unfold descriptor
  cases d.checksum <;> cases d.singleSegment <;> simp <;> omega

theorem size_markPart (d : Description) : d.markPart.size = d.format.prefixSize - 1 := by
  unfold markPart
  cases d.format
  · rw [if_pos rfl, size_putLe]
    rfl
  · rfl

theorem size_windowPart (d : Description) : d.windowPart.size = 1 - (if d.singleSegment then 1 else 0) := by
  unfold windowPart
  cases d.singleSegment
  · rw [if_neg (by decide), size_putLe]
    rfl
  · rfl

theorem size_dictIdPart (d : Description) : d.dictIdPart.size = dictIdWidth d.dictIdCode := by
  rw [dictIdPart, size_putLe]
  exact zero_add _

theorem size_contentPart (h : d.Fits) :
    d.contentPart.size = contentWidth d.contentCode + (if (if d.singleSegment then 1 else 0) = 1 ∧ d.contentCode = 0 then 1 else 0) := by
  unfold contentPart
  rcases hc : d.contentSize with _ | n
  · have hcode : d.contentCode = 0 := by rw [contentCode, hc]
    have hsingle : d.singleSegment = false := by rw [singleSegment, hc]
    rw [hcode, hsingle]
    rfl
  · dsimp only
    by_cases h0 : d.contentCode = 0
    · have hsmall : n < 256 := by
        rw [contentCode, hc] at h0
        dsimp only at h0
        by_contra hge
        rw [if_neg hge] at h0
        split at h0
        · omega
        · split at h0 <;> omega
      rw [if_pos h0, if_pos (singleSegment_of_small h hc hsmall), singleSegment_of_small h hc hsmall, h0, size_putLe]
      rfl
    · have hnone : ¬ ((if d.singleSegment then 1 else 0) = 1 ∧ d.contentCode = 0) := fun hh => h0 hh.2
      rw [if_neg h0, if_neg hnone, add_zero]
      by_cases h1 : d.contentCode = 1
      · rw [if_pos h1, h1, size_putLe]
        rfl
      · rw [if_neg h1, size_putLe]
        exact zero_add _

theorem size_write (h : d.Fits) : d.write.size = headerSizeOf d.format d.descriptor := by
  obtain ⟨-, hid, -, -, hsingle, hcode⟩ := d.descriptor_spec
  have hpre : 0 < d.format.prefixSize := by cases d.format <;> decide
  rw [write_eq, size_append, size_append, size_append, size_append, size_markPart, size_windowPart,
    size_dictIdPart, size_contentPart h, size_putLe, headerSizeOf]
  rw [hid, hsingle, hcode]
  have hempty : ByteArray.empty.size = 0 := rfl
  omega

theorem size_write_le (d : Description) : d.write.size ≤ 18 := by
  have hid : dictIdWidth d.dictIdCode ≤ 4 := by
    have := d.dictIdCode_le
    unfold dictIdWidth
    split <;> omega
  have hwidth : contentWidth d.contentCode ≤ 8 := by
    unfold contentWidth
    split
    · decide
    · exact Nat.pow_le_pow_right (by decide) d.contentCode_le
  have hcontent : d.contentPart.size ≤ 8 := by
    unfold contentPart
    split
    · decide
    · split <;> split <;> simp [size_putLe, hwidth]
  have hpre : d.format.prefixSize ≤ 5 := by cases d.format <;> decide
  grind [write_eq, size_markPart, size_windowPart, size_dictIdPart, size_putLe, size_empty]

variable (rest : ByteArray)

theorem natAt_descriptor : natAt (d.write ++ rest) (d.format.prefixSize - 1) = d.descriptor := by
  rw [natAt_eq_fieldAt, write_eq, append_assoc, append_assoc, ← size_markPart, fieldAt_append, append_assoc]
  exact fieldAt_putLe_self (lt_of_lt_of_le d.descriptor_spec.1 (by decide)) _

theorem write_append : d.write ++ rest =
    (d.markPart ++ putLe .empty d.descriptor 1) ++ (d.windowPart ++ (d.dictIdPart ++ (d.contentPart ++ rest))) := by
  rw [write_eq]
  simp only [append_assoc]

theorem size_front : (d.markPart ++ putLe .empty d.descriptor 1).size = d.format.prefixSize := by
  have hpre : 0 < d.format.prefixSize := by cases d.format <;> decide
  have hempty : ByteArray.empty.size = 0 := rfl
  rw [size_append, size_markPart, size_putLe]
  omega

theorem natAt_window (h : d.Fits) (hs : d.singleSegment = false) : natAt (d.write ++ rest) d.format.prefixSize = 8 * (d.windowLog - windowLogMin) := by
  have h1 := h.windowLog_le
  have hmax : windowLogMax = 31 := rfl
  rw [natAt_eq_fieldAt, write_append, ← size_front (d := d), fieldAt_append, windowPart, hs, if_neg (by decide)]
  exact fieldAt_putLe_self (by omega) _

theorem dictId_lt (h : d.Fits) : d.dictId < 256 ^ dictIdWidth d.dictIdCode := by
  have hlt := h.dictId_lt
  unfold dictIdCode
  split
  · rename_i h0
    rw [h0]
    exact Nat.pow_pos (by omega)
  · split
    · assumption
    · split
      · assumption
      · exact hlt

theorem fieldAt_dictId (h : d.Fits) :
    fieldAt (d.write ++ rest) (d.format.prefixSize + d.windowPart.size) (dictIdWidth d.dictIdCode) = d.dictId := by
  grind [write_append, size_front, fieldAt_append_right, fieldAt_append, dictIdPart, fieldAt_putLe_self, dictId_lt]

theorem fieldAt_content (n : Nat) :
    fieldAt (d.write ++ rest) (d.format.prefixSize + d.windowPart.size + dictIdWidth d.dictIdCode) n = fieldAt (d.contentPart ++ rest) 0 n := by
  rw [write_append, ← size_front (d := d), add_assoc, fieldAt_append_right, ← size_dictIdPart, fieldAt_append_right, fieldAt_append]

theorem contentSize_read (h : d.Fits) :
    (if d.contentCode = 0 then if d.singleSegment = true then some (fieldAt (d.contentPart ++ rest) 0 1) else none
      else if d.contentCode = 1 then some (fieldAt (d.contentPart ++ rest) 0 2 + 256)
      else if fieldAt (d.contentPart ++ rest) 0 (contentWidth d.contentCode) = unknownSize then none
        else some (fieldAt (d.contentPart ++ rest) 0 (contentWidth d.contentCode))) = d.contentSize := by
  rcases hc : d.contentSize with _ | n
  · simp_all [contentCode, singleSegment]
  · have hlt := h.contentSize_lt n hc
    by_cases h256 : n < 256
    · simp_all [contentCode, singleSegment_of_small, contentPart, fieldAt_putLe_self]
    by_cases h64 : n < 65792
    · have hcode : d.contentCode = 1 := by
        rw [contentCode, hc]
        dsimp only
        rw [if_neg h256, if_pos h64]
      rw [if_neg (by omega), if_pos hcode, contentPart, hc]
      dsimp only
      rw [if_neg (by omega), if_pos hcode, fieldAt_putLe_self (by omega), Nat.sub_add_cancel (by omega)]
    · have hcode : d.contentCode = if n < 0xFFFFFFFF then 2 else 3 := by
        rw [contentCode, hc]
        dsimp only
        rw [if_neg h256, if_neg h64]
      have hlt' : n < 256 ^ contentWidth d.contentCode := by
        rw [hcode]
        split
        · exact lt_trans ‹n < 0xFFFFFFFF› (by decide)
        · exact lt_trans hlt (by decide)
      have hne0 : d.contentCode ≠ 0 := by
        rw [hcode]
        split <;> omega
      have hne1 : d.contentCode ≠ 1 := by
        rw [hcode]
        split <;> omega
      have hpart : d.contentPart = putLe .empty n (contentWidth d.contentCode) := by
        rw [contentPart, hc]
        dsimp only
        rw [if_neg hne0, if_neg hne1]
      rw [if_neg hne0, if_neg hne1, hpart, fieldAt_putLe_self hlt', if_neg (by omega)]

theorem readFields_write (h : d.Fits) : readFields d.format (d.write ++ rest) d.write.size = .ok d.header := by
  obtain ⟨-, hid, hcheck, hbit, hsingle, hcode⟩ := d.descriptor_spec
  have hle := h.le_windowLog
  have hmax := h.windowLog_le
  unfold readFields
  dsimp only
  rw [natAt_descriptor, hid, hcheck, hbit, hsingle, hcode]
  rcases hs : d.singleSegment with _ | _
  · have hpart : d.windowPart.size = 1 := by rw [size_windowPart, hs]; rfl
    have hlog : 8 * (d.windowLog - windowLogMin) / 8 + windowLogMin = d.windowLog := by omega
    have hzero : 8 * (d.windowLog - windowLogMin) % 8 = 0 := by omega
    have hc := contentSize_read rest h
    have hd := fieldAt_dictId rest h
    have hfield (n : Nat) := fieldAt_content (d := d) rest n
    rw [hpart] at hd
    simp only [hpart] at hfield
    rw [hs] at hc
    simp only [Bool.false_eq_true, if_false, show ¬ (0 : Nat) = 1 by decide, not_false_eq_true, true_and] at hc ⊢
    rw [natAt_window rest h hs, hlog, if_neg (by omega), hzero, mul_zero, hd, le16_eq_fieldAt, hfield, hfield, hc, header, hs]
    cases d.checksum <;> rfl
  · have hpart : d.windowPart.size = 0 := by rw [size_windowPart, hs]; rfl
    have hc := contentSize_read rest h
    have hd := fieldAt_dictId rest h
    rw [hpart, add_zero] at hd
    have hfield (n : Nat) := fieldAt_content (d := d) rest n
    simp only [hpart, add_zero] at hfield
    rw [hs] at hc
    simp only [if_true, not_true_eq_false, false_and, if_false] at hc ⊢
    rw [hd, le16_eq_fieldAt, natAt_eq_fieldAt, hfield, hfield, hfield, hc, header, hs]
    cases d.checksum <;> rfl

theorem prefixSize_le (h : d.Fits) : d.format.prefixSize ≤ d.write.size := by
  rw [size_write h, headerSizeOf]
  omega

theorem leastHeader_le (h : d.Fits) : d.format.leastHeader ≤ d.write.size := by
  obtain ⟨-, -, -, -, hsingle, hcode⟩ := d.descriptor_spec
  have hleast : d.format.leastHeader = d.format.prefixSize + 1 := by cases d.format <;> rfl
  rw [size_write h, headerSizeOf, hleast, hsingle, hcode]
  -- without a window field the size field is there
  by_cases hs : d.singleSegment = true
  · by_cases hc : d.contentCode = 0
    · simp [hs, hc]
      omega
    · have : 0 < contentWidth d.contentCode := by
        rw [contentWidth, if_neg hc]
        exact Nat.two_pow_pos _
      omega
  · simp [hs]
    omega

theorem headerSize_write (h : d.Fits) : headerSize d.format (d.write ++ rest) = .ok d.write.size := by
  have := prefixSize_le h
  rw [headerSize, if_neg (by rw [size_append]; omega), natAt_descriptor, size_write h]

theorem le32_marked (hm : d.format = .marked) : le32 (d.write ++ rest) 0 = mark := by
  rw [write_eq, append_assoc, markPart, if_pos hm]
  exact le32_putLe (by decide) _

theorem read_write (h : d.Fits) : read d.format (d.write ++ rest) = .ok (.frame d.header) := by
  have hpre := prefixSize_le h
  have hsize : (d.write ++ rest).size = d.write.size + rest.size := size_append
  have hmark : ¬ (d.format = .marked ∧ le32 (d.write ++ rest) 0 ≠ mark) := fun hh => hh.2 (le32_marked rest hh.1)
  rw [Frame.read, if_neg (by omega), if_neg hmark, natAt_descriptor, ← size_write h]
  rw [if_neg (by omega), readFields_write rest h]
  rfl

/-! ### Headers that come in pieces -/

theorem mayBecomeMark_take (hk : k ≤ 4) (hm : d.format = .marked) : mayBecomeMark (slice d.write 0 k) = true := by
  have hmark : d.markPart = putLe .empty mark 4 := if_pos hm
  have hsize : (putLe .empty mark 4).size = 4 := rfl
  have htake : slice d.write 0 k = slice (putLe .empty mark 4) 0 k := by
    rw [write_eq, hmark, slice_append_of_le (by omega)]
  have hlen : (slice (putLe .empty mark 4) 0 k).size = k := by rw [size_slice_of_le (by omega), Nat.sub_zero]
  have hfill : slice (putLe .empty mark 4) 0 k ++ slice (putLe .empty mark 4) k 4 = putLe .empty mark 4 := by
    have hall := slice_all (putLe .empty mark 4)
    rw [hsize] at hall
    rw [slice_append_slice (Nat.zero_le _) hk, hall]
  have hle : le32 (putLe .empty mark 4) 0 = mark := by
    have := le32_putLe (show mark < 2 ^ 32 by decide) .empty
    rwa [append_empty] at this
  simp_all [mayBecomeMark]

/-- From the first bytes of a header a reader learns how many it has to wait for. -/
theorem read_take (h : d.Fits) (hk : k ≤ d.write.size) :
    read d.format (slice d.write 0 k) =
      if k < d.format.prefixSize then .ok (.more d.format.prefixSize)
      else if k < d.write.size then .ok (.more d.write.size)
      else .ok (.frame d.header) := by
  have hlen : (slice d.write 0 k).size = k := by rw [size_slice_of_le hk, Nat.sub_zero]
  rw [Frame.read, hlen]
  by_cases hpre : k < d.format.prefixSize
  · have hmay : ¬ (0 < k ∧ d.format = .marked ∧ (! mayBecomeMark (slice d.write 0 k)) = true) := by
      rintro ⟨-, hm, hnot⟩
      have hfive : d.format.prefixSize = 5 := by rw [hm]; rfl
      rw [mayBecomeMark_take (by omega) hm] at hnot
      cases hnot
    rw [if_pos hpre, if_pos hpre, if_neg hmay]
  rw [if_neg hpre, if_neg hpre]
  by_cases hlt : k < d.write.size
  · have hall := natAt_descriptor (d := d) .empty
    have hpos : 0 < d.format.prefixSize := by cases d.format <;> decide
    rw [append_empty] at hall
    have hmark : ¬ (d.format = .marked ∧ le32 (slice d.write 0 k) 0 ≠ mark) := by
      rintro ⟨hm, hne⟩
      have hfive : d.format.prefixSize = 5 := by rw [hm]; rfl
      have hle := le32_marked .empty hm
      rw [append_empty] at hle
      refine hne ?_
      rw [le32_eq] at hle ⊢
      rw [natAt_slice_of_lt (by omega), natAt_slice_of_lt (by omega), natAt_slice_of_lt (by omega), natAt_slice_of_lt (by omega)]
      simpa only [zero_add] using hle
    have hdescriptor : natAt (slice d.write 0 k) (d.format.prefixSize - 1) = d.descriptor := by
      rw [natAt_slice_of_lt (by omega), zero_add, hall]
    simp_all [size_write]
  · have heq : slice d.write 0 k = d.write := by rw [show k = d.write.size by omega, slice_all]
    have := read_write .empty h
    rw [append_empty, Frame.read, if_neg (by omega)] at this
    simp_all

end Description

end ZstCodec.Frame
