import Mathlib.Tactic.Ring
import Mathlib.Tactic.Linarith
import ZstCodec.Bytes

/-! # Laws of byte strings

A byte string is determined by its size and by `byteAt` (`ext_byteAt`), so every operation of `Bytes` has two laws.

* Slices that meet join to one slice (`slice_append_slice`), and `copySlice` at the end appends a slice
  (`copySlice_end`).
* The words read are the values of their bytes, lowest first, and `putLe` writes what they read.
* `same4`, `same8`, `agreement` and `backward` are read as equations of `byteAt`. -/

namespace ZstCodec

export ByteArray (size_append append_assoc append_empty empty_append size_push size_empty size_eq_zero_iff)

variable {a b c : ByteArray}

variable {x y : ByteArray} {k : Nat}

/-! ### Bytes by position -/

theorem byteAt_of_lt (h : i < b.size) : byteAt b i = b[i] := by
  simp [byteAt, h]

theorem byteAt_of_ge (h : b.size ≤ i) : byteAt b i = 0 := by
  simp [byteAt, not_lt.mpr h]

theorem natAt_of_ge (h : b.size ≤ i) : natAt b i = 0 := by
  simp [natAt, byteAt_of_ge h]

theorem natAt_lt (b : ByteArray) (i : Nat) : natAt b i < 256 := (byteAt b i).toNat_lt

theorem natAt_eq_iff : natAt a i = natAt b j ↔ byteAt a i = byteAt b j :=
  UInt8.toNat_inj

theorem ext_byteAt (hs : a.size = b.size) (h : ∀ i < a.size, byteAt a i = byteAt b i) : a = b := by
  grind [ByteArray.ext_getElem, byteAt_of_lt]

theorem byteAt_append (i : Nat) :
    byteAt (a ++ b) i = if i < a.size then byteAt a i else byteAt b (i - a.size) := by
  rcases lt_or_ge i a.size with h | h
  · have h' : i < (a ++ b).size := by rw [size_append]; omega
    simp_all [byteAt_of_lt]
  · rw [if_neg (by omega)]
    grind [byteAt_of_lt, ByteArray.getElem_append_right, byteAt_of_ge]

theorem byteAt_append_left (h : i < a.size) : byteAt (a ++ b) i = byteAt a i := by
  rw [byteAt_append, if_pos h]

theorem byteAt_append_right (i : Nat) : byteAt (a ++ b) (a.size + i) = byteAt b i := by
  simp [byteAt_append]

theorem toUInt8_natAt (b : ByteArray) (i : Nat) : (natAt b i).toUInt8 = byteAt b i := by
  simp [natAt]

theorem natAt_append_left (h : i < a.size) : natAt (a ++ b) i = natAt a i := by
  rw [natAt, byteAt_append_left h, natAt]

theorem natAt_append_right (a b : ByteArray) (i : Nat) : natAt (a ++ b) (a.size + i) = natAt b i := by
  rw [natAt, byteAt_append_right, natAt]

theorem push_eq_append (b : ByteArray) (v : UInt8) : b.push v = b ++ [v].toByteArray :=
  ByteArray.append_toByteArray_singleton.symm

theorem byteAt_push (v : UInt8) (i : Nat) :
    byteAt (b.push v) i = if i < b.size then byteAt b i else if i = b.size then v else 0 := by
  rw [push_eq_append, byteAt_append]
  split
  · rfl
  · split
    · rename_i h
      subst h
      simp [byteAt]
    · exact byteAt_of_ge (by simp; omega)

theorem byteAt_push_self (v : UInt8) : byteAt (b.push v) b.size = v := by
  simp [byteAt_push]

theorem byteAt_push_lt (h : i < b.size) : byteAt (b.push v) i = byteAt b i := by
  rw [byteAt_push, if_pos h]

theorem append_push (a b : ByteArray) (v : UInt8) : a ++ b.push v = (a ++ b).push v := by
  rw [push_eq_append, push_eq_append, append_assoc]

/-! ### Slices -/

@[simp] theorem size_slice (b : ByteArray) (i j : Nat) : (slice b i j).size = min j b.size - i :=
  ByteArray.size_extract

theorem size_slice_of_le (h : j ≤ b.size) : (slice b i j).size = j - i := by
  rw [size_slice, Nat.min_eq_left h]

theorem byteAt_slice (i j k : Nat) :
    byteAt (slice b i j) k = if k < min j b.size - i then byteAt b (i + k) else 0 := by
  split
  · rename_i h
    rw [byteAt_of_lt (by rw [size_slice]; exact h), byteAt_of_lt (show i + k < b.size by omega)]
    exact ByteArray.getElem_extract _
  simp_all [byteAt_of_ge]

theorem byteAt_slice_of_lt (h : i + k < j) : byteAt (slice b i j) k = byteAt b (i + k) := by
  grind [byteAt_slice, byteAt_of_ge]

theorem natAt_slice_of_lt (h : i + k < j) : natAt (slice b i j) k = natAt b (i + k) := by
  rw [natAt, byteAt_slice_of_lt h, natAt]

theorem slice_append_slice (h₁ : i ≤ j) (h₂ : j ≤ k) :
    slice b i j ++ slice b j k = slice b i k := by
  simp_all [slice]

theorem slice_self (b : ByteArray) (i : Nat) : slice b i i = .empty := ByteArray.extract_same

theorem slice_all (b : ByteArray) : slice b 0 b.size = b := ByteArray.extract_zero_size

theorem slice_of_le (h : j ≤ i) : slice b i j = .empty := by
  apply size_eq_zero_iff.mp
  rw [size_slice]
  omega

theorem slice_append_of_le (h : j ≤ a.size) : slice (a ++ b) i j = slice a i j := by
  apply ext_byteAt
  · simp only [size_slice, size_append]
    omega
  grind [size_slice, byteAt_slice_of_lt, byteAt_append_left]

theorem slice_append_of_ge (h : a.size ≤ i) :
    slice (a ++ b) i j = slice b (i - a.size) (j - a.size) := by
  apply ext_byteAt
  · simp only [size_slice, size_append]
    omega
  · intro k hk
    simp only [size_slice, size_append] at hk
    rw [byteAt_slice_of_lt (by omega), byteAt_slice_of_lt (by omega), byteAt_append,
      if_neg (by omega)]
    congr 1
    omega

theorem slice_append_right (a b : ByteArray) : slice (a ++ b) a.size (a ++ b).size = b := by
  simp [slice_append_of_ge, slice_all]

theorem slice_middle (a m c : ByteArray) : slice (a ++ m ++ c) a.size (a.size + m.size) = m := by
  grind [slice_append_of_le, slice_append_right]

theorem slice_slice (h : i + l ≤ j) : slice (slice b i j) k l = slice b (i + k) (i + l) := by
  apply ext_byteAt
  · simp only [size_slice]
    omega
  grind [size_slice, byteAt_slice_of_lt]

theorem slice_push (h : i < j) (hj : j ≤ b.size) : slice b i j = (slice b i (j - 1)).push (byteAt b (j - 1)) := by
  apply ext_byteAt
  · simp only [size_slice, size_push]
    omega
  · intro k hk
    simp only [size_slice] at hk
    rw [byteAt_slice_of_lt (by omega), byteAt_push]
    simp only [size_slice]
    split
    · rw [byteAt_slice_of_lt (by omega)]
    · rw [if_pos (by omega)]
      congr 1
      omega

theorem append_left_cancel (h : a ++ b = a ++ x) : b = x := by
  rw [← slice_append_right a b, h, slice_append_right]

theorem exists_append_of_le (h : a ++ b = x ++ y) (hle : a.size ≤ x.size) : ∃ z, x = a ++ z ∧ b = z ++ y := by
  have hfront : a = slice x 0 a.size := by
    rw [← slice_append_of_le (b := y) hle, ← h, slice_append_of_le le_rfl, slice_all]
  have hx : x = a ++ slice x a.size x.size := by
    conv_rhs => rw [hfront, size_slice_of_le hle, Nat.sub_zero]
    rw [slice_append_slice (Nat.zero_le _) hle, slice_all]
  grind [append_left_cancel, append_assoc]

theorem append_inj (h : a ++ b = x ++ y) (hs : a.size = x.size) : a = x ∧ b = y := by
  obtain ⟨z, rfl, rfl⟩ := exists_append_of_le h (le_of_eq hs)
  simp_all

/-- Of two ways to cut a byte string in two, one cuts a part of the other. -/
theorem append_eq_append (h : a ++ b = x ++ y) :
    (∃ z, x = a ++ z ∧ b = z ++ y) ∨ ∃ z, 0 < z.size ∧ a = x ++ z ∧ y = z ++ b := by
  rcases lt_or_ge x.size a.size with hlt | hle
  · obtain ⟨z, hz⟩ := exists_append_of_le h.symm (le_of_lt hlt)
    simp_all
  · exact .inl (exists_append_of_le h hle)

theorem copySlice_end (src dst : ByteArray) (i n : Nat) :
    src.copySlice i dst dst.size n = dst ++ slice src i (i + n) := by
  rw [ByteArray.copySlice_eq_append]
  have h1 : dst.extract 0 dst.size = dst := ByteArray.extract_zero_size
  have h2 : dst.extract (dst.size + min n (src.data.size - i)) dst.data.size = .empty := by
    apply size_eq_zero_iff.mp
    rw [ByteArray.size_extract, ByteArray.size_data]
    omega
  rw [h1, h2, append_empty]
  rfl

/-! ### Runs of one byte -/

theorem size_pushMany (v : UInt8) (n : Nat) (out : ByteArray) : (pushMany out v n).size = out.size + n := by
  induction n generalizing out with
  | zero => rfl
  | succ n ih =>
      rw [pushMany, ih, size_push]
      omega

theorem byteAt_pushMany (v : UInt8) (n : Nat) (out : ByteArray) (i : Nat) :
    byteAt (pushMany out v n) i = if i < out.size then byteAt out i else if i < out.size + n then v else 0 := by
  induction n generalizing out with
  | zero =>
      simp_all [pushMany, byteAt_of_ge]
  | succ n ih =>
      grind [pushMany, size_push, byteAt_push]

theorem size_replicate (n : Nat) (v : UInt8) : (replicate n v).size = n := by
  rw [replicate, size_pushMany]
  exact zero_add n

theorem byteAt_replicate (v : UInt8) (h : i < n) : byteAt (replicate n v) i = v := by
  have h0 : (ByteArray.emptyWithCapacity n).size = 0 := rfl
  simp_all [replicate, byteAt_pushMany]

theorem pushMany_eq_append (out : ByteArray) (v : UInt8) (n : Nat) : pushMany out v n = out ++ replicate n v := by
  apply ext_byteAt
  · rw [size_pushMany, size_append, size_replicate]
  grind [size_pushMany, byteAt_pushMany, byteAt_append, byteAt_replicate]

/-! ### Words -/

theorem putLe_eq_append (out : ByteArray) (v n : Nat) : putLe out v n = out ++ putLe .empty v n := by
  induction n generalizing out v with
  | zero => simp [putLe]
  | succ n ih =>
      rw [putLe, putLe, ih (out.push _), ih (ByteArray.empty.push _), ← append_assoc, append_push,
        append_empty]

theorem size_putLe (out : ByteArray) (v n : Nat) : (putLe out v n).size = out.size + n := by
  induction n generalizing out v with
  | zero => rfl
  | succ n ih =>
      rw [putLe, ih, size_push]
      omega

theorem natAt_putLe (v : Nat) (h : k < n) :
    natAt (putLe .empty v n) k = v / 256 ^ k % 256 := by
  induction n generalizing v k with
  | zero => omega
  | succ n ih =>
      rw [putLe, putLe_eq_append]
      cases k with
      | zero =>
          have h0 := byteAt_push_self (b := .empty) (v % 256).toUInt8
          simp_all [natAt, byteAt_append_left]
      | succ k =>
          have hs : (ByteArray.empty.push (v % 256).toUInt8).size = 1 := by simp [size_push]
          have hk : k + 1 = (ByteArray.empty.push (v % 256).toUInt8).size + k := by omega
          rw [natAt, hk, byteAt_append_right, ← natAt, ih _ (by omega), hs, pow_add, Nat.pow_one,
            Nat.div_div_eq_div_mul]

theorem natAt_putLe_append (v : Nat) (h : k < n) (rest : ByteArray) :
    natAt (putLe .empty v n ++ rest) k = v / 256 ^ k % 256 := by
  rw [natAt_append_left (by rw [size_putLe]; omega), natAt_putLe v h]

theorem le16_append_left (h : i + 2 ≤ a.size) : le16 (a ++ b) i = le16 a i := by
  grind [le16, natAt, byteAt_append_left]

theorem le16_append_right (a b : ByteArray) (i : Nat) : le16 (a ++ b) (a.size + i) = le16 b i := by
  simp [le16, natAt, byteAt_append_right, add_assoc]

theorem le16_putLe (hv : v < 65536) : le16 (putLe .empty v 2) 0 = v := by
  grind [le16, natAt_putLe]

theorem word32_eq (b : ByteArray) (i : Nat) :
    word32 b i = (byteAt b i).toUInt32 ||| ((byteAt b (i + 1)).toUInt32 <<< 8)
      ||| ((byteAt b (i + 2)).toUInt32 <<< 16) ||| ((byteAt b (i + 3)).toUInt32 <<< 24) := by
  grind [word32, byteAt_of_lt]

theorem or_shiftLeft_eq_add {x n : Nat} (y : Nat) (h : x < 2 ^ n) : x ||| (y <<< n) = x + y * 2 ^ n := by
  grind [Nat.shiftLeft_add_eq_or_of_lt, Nat.shiftLeft_eq]

theorem or_bytes {x y z w : Nat} (hx : x < 256) (hy : y < 256) (hz : z < 256) :
    x ||| y <<< 8 ||| z <<< 16 ||| w <<< 24 = x + 256 * y + 65536 * z + 16777216 * w := by
  grind [or_shiftLeft_eq_add]

theorem toNat_shiftLeft_byte32 (v : UInt8) (h : n ≤ 24) :
    (v.toUInt32 <<< n.toUInt32).toNat = v.toNat <<< n := by
  have hv := v.toNat_lt
  have hp : 2 ^ n ≤ 2 ^ 24 := Nat.pow_le_pow_right (by omega) h
  have hm : v.toNat * 2 ^ n ≤ 255 * 2 ^ 24 := Nat.mul_le_mul (by omega) hp
  rw [UInt32.toNat_shiftLeft, UInt8.toNat_toUInt32, UInt32.toNat_ofNat_of_lt' (by simp [UInt32.size]; omega),
    Nat.mod_eq_of_lt (a := n) (by omega), Nat.shiftLeft_eq, Nat.mod_eq_of_lt (by omega)]

theorem toNat_shiftLeft_byte64 (v : UInt8) (h : n ≤ 56) :
    (v.toUInt64 <<< n.toUInt64).toNat = v.toNat <<< n := by
  have hv := v.toNat_lt
  have hp : 2 ^ n ≤ 2 ^ 56 := Nat.pow_le_pow_right (by omega) h
  have hm : v.toNat * 2 ^ n ≤ 255 * 2 ^ 56 := Nat.mul_le_mul (by omega) hp
  rw [UInt64.toNat_shiftLeft, UInt8.toNat_toUInt64, UInt64.toNat_ofNat_of_lt' (by simp [UInt64.size]; omega),
    Nat.mod_eq_of_lt (a := n) (by omega), Nat.shiftLeft_eq, Nat.mod_eq_of_lt (by omega)]

theorem word32_toNat (b : ByteArray) (i : Nat) :
    (word32 b i).toNat =
      natAt b i + 256 * natAt b (i + 1) + 65536 * natAt b (i + 2) + 16777216 * natAt b (i + 3) := by
  have e1 := toNat_shiftLeft_byte32 (byteAt b (i + 1)) (n := 8) (by omega)
  have e2 := toNat_shiftLeft_byte32 (byteAt b (i + 2)) (n := 16) (by omega)
  have e3 := toNat_shiftLeft_byte32 (byteAt b (i + 3)) (n := 24) (by omega)
  rw [word32_eq, UInt32.toNat_or, UInt32.toNat_or, UInt32.toNat_or, UInt8.toNat_toUInt32]
  exact (congrArg₂ _ (congrArg₂ _ (congrArg₂ _ rfl e1) e2) e3).trans
    (or_bytes (natAt_lt b i) (natAt_lt b (i + 1)) (natAt_lt b (i + 2)))

theorem le32_eq (b : ByteArray) (i : Nat) :
    le32 b i = natAt b i + 256 * natAt b (i + 1) + 65536 * natAt b (i + 2) + 16777216 * natAt b (i + 3) :=
  word32_toNat b i

theorem le32_append_right (a b : ByteArray) (i : Nat) : le32 (a ++ b) (a.size + i) = le32 b i := by
  have hbyte (k : Nat) : natAt (a ++ b) (a.size + i + k) = natAt b (i + k) := by rw [add_assoc, natAt_append_right]
  simp_all [le32_eq, natAt_append_right]

theorem le32_lt (b : ByteArray) (i : Nat) : le32 b i < 2 ^ 32 := (word32 b i).toNat_lt

theorem word64_toNat (b : ByteArray) (i : Nat) : (word64 b i).toNat = le32 b i + 2 ^ 32 * le32 b (i + 4) := by
  have hl := le32_lt b i
  have hh := le32_lt b (i + 4)
  unfold word64
  split
  · rename_i h
    have e (k : Nat) (hk : i + k < b.size) (n : Nat) (hn : n ≤ 56) :
        (b[i + k].toUInt64 <<< n.toUInt64).toNat = natAt b (i + k) <<< n := by
      rw [toNat_shiftLeft_byte64 _ hn, natAt, byteAt_of_lt hk]
    have e0 : (b[i].toUInt64).toNat = natAt b i := by
      rw [natAt, byteAt_of_lt (by omega), UInt8.toNat_toUInt64]
    rw [UInt64.toNat_or, UInt64.toNat_or, UInt64.toNat_or, UInt64.toNat_or, UInt64.toNat_or, UInt64.toNat_or,
      UInt64.toNat_or, e0]
    have hw : natAt b i ||| natAt b (i + 1) <<< 8 ||| natAt b (i + 2) <<< 16 ||| natAt b (i + 3) <<< 24 = le32 b i :=
      (or_bytes (natAt_lt b i) (natAt_lt b (i + 1)) (natAt_lt b (i + 2))).trans (le32_eq b i).symm
    have h0 := natAt_lt b (i + 4)
    have h1 := natAt_lt b (i + 5)
    have h2 := natAt_lt b (i + 6)
    have s4 : le32 b i ||| natAt b (i + 4) <<< 32 = le32 b i + natAt b (i + 4) * 2 ^ 32 :=
      or_shiftLeft_eq_add _ hl
    have s5 : (le32 b i + natAt b (i + 4) * 2 ^ 32) ||| natAt b (i + 5) <<< 40 =
        le32 b i + natAt b (i + 4) * 2 ^ 32 + natAt b (i + 5) * 2 ^ 40 := or_shiftLeft_eq_add _ (by omega)
    have s6 : (le32 b i + natAt b (i + 4) * 2 ^ 32 + natAt b (i + 5) * 2 ^ 40) ||| natAt b (i + 6) <<< 48 =
        le32 b i + natAt b (i + 4) * 2 ^ 32 + natAt b (i + 5) * 2 ^ 40 + natAt b (i + 6) * 2 ^ 48 :=
      or_shiftLeft_eq_add _ (by omega)
    refine (congrArg₂ _ (congrArg₂ _ (congrArg₂ _ (congrArg₂ _ (congrArg₂ _ (congrArg₂ _ (congrArg₂ _ rfl
      (e 1 (by omega) 8 (by omega))) (e 2 (by omega) 16 (by omega))) (e 3 (by omega) 24 (by omega)))
      (e 4 (by omega) 32 (by omega))) (e 5 (by omega) 40 (by omega))) (e 6 (by omega) 48 (by omega)))
      (e 7 (by omega) 56 (by omega))).trans ?_
    rw [hw, s4, s5, s6, or_shiftLeft_eq_add _ (by omega), le32_eq b (i + 4)]
    simp only [add_assoc, Nat.reduceAdd]
    omega
  · rw [UInt64.toNat_or, UInt64.toNat_shiftLeft, UInt32.toNat_toUInt64, UInt32.toNat_toUInt64]
    have e : (le32 b (i + 4)) <<< (32 : UInt64).toNat % 2 ^ 64 = le32 b (i + 4) <<< 32 := by
      have h32 : (32 : UInt64).toNat = 32 := rfl
      rw [h32, Nat.shiftLeft_eq]
      omega
    refine (congrArg₂ _ rfl e).trans ?_
    exact (or_shiftLeft_eq_add _ hl).trans (by rw [mul_comm])

/-! ### Highest bits -/

theorem highBit_spec (h : 0 < n) : 2 ^ highBit n ≤ n ∧ n < 2 * 2 ^ highBit n := by
  rw [highBit]
  exact ⟨Nat.log2_self_le (by omega), by have := @Nat.lt_log2_self n; rw [pow_succ] at this; omega⟩

/-- A number with as many extra bits as its highest bit is given back by them. -/
theorem pow_highBit_add_mod (h : 0 < n) : 2 ^ highBit n + n % 2 ^ highBit n = n := by
  obtain ⟨hle, hlt⟩ := highBit_spec h
  have hdiv : n / 2 ^ highBit n = 1 := Nat.div_eq_of_lt_le (by omega) (by omega)
  grind [Nat.div_add_mod]

theorem highBit_lt (h0 : 0 < n) (h : n < 2 ^ k) : highBit n < k :=
  (Nat.pow_lt_pow_iff_right (by omega)).1 (lt_of_le_of_lt (highBit_spec h0).1 h)

theorem le_highBit (h : 2 ^ k ≤ n) : k ≤ highBit n := by
  have h0 : 0 < n := lt_of_lt_of_le (Nat.two_pow_pos k) h
  have hlt : 2 ^ k < 2 ^ (highBit n + 1) := by
    have := (highBit_spec h0).2
    omega
  have := (Nat.pow_lt_pow_iff_right (by omega)).1 hlt
  omega

theorem highBit_lt_of_lt (hk : 0 < k) (h : n < 2 ^ k) : highBit n < k := by
  rcases Nat.eq_zero_or_pos n with rfl | hpos
  · exact hk
  · exact highBit_lt hpos h

/-! ### Agreement of two places -/

/-- The `n` bytes at `i` and at `j` are equal. -/
def Agree (b : ByteArray) (i j n : Nat) : Prop := ∀ k < n, byteAt b (i + k) = byteAt b (j + k)

namespace Agree

variable {b : ByteArray} {i j n m : Nat}

theorem nil (b : ByteArray) (i j : Nat) : Agree b i j 0 := fun _ h => absurd h (Nat.not_lt_zero _)

theorem mono (h : Agree b i j n) (hm : m ≤ n) : Agree b i j m := fun k hk => h k (by omega)

theorem symm (h : Agree b i j n) : Agree b j i n := fun k hk => (h k hk).symm

theorem append (h : Agree b i j n) (h' : Agree b (i + n) (j + n) m) : Agree b i j (n + m) := by
  intro k hk
  by_cases hn : k < n
  · exact h k hn
  · have e := h' (k - n) (by omega)
    simp_all

theorem append_right (h : Agree b i j n) (hi : i + n ≤ b.size) (hj : j + n ≤ b.size) (c : ByteArray) :
    Agree (b ++ c) i j n := by
  intro k hk
  rw [byteAt_append_left (by omega), byteAt_append_left (by omega)]
  exact h k hk

end Agree

theorem sameBytes_iff (a : ByteArray) (i : Nat) (b : ByteArray) (j n : Nat) :
    sameBytes a i b j n = true ↔ ∀ k < n, byteAt a (i + k) = byteAt b (j + k) := by
  induction n generalizing i j with
  | zero => simp [sameBytes]
  | succ n ih =>
    simp only [sameBytes, Bool.and_eq_true, beq_iff_eq, ih]
    constructor
    · rintro ⟨h0, h⟩ k hk
      rcases k with _ | k
      · exact h0
      grind
    · intro h
      refine ⟨h 0 (by omega), fun k hk => ?_⟩
      grind

theorem bytesEq_iff : bytesEq a b = true ↔ a = b := by
  simp only [bytesEq, Bool.and_eq_true, beq_iff_eq, sameBytes_iff, zero_add]
  constructor
  · rintro ⟨hs, h⟩
    exact ext_byteAt hs h
  · rintro rfl
    exact ⟨rfl, fun _ _ => rfl⟩

theorem same4_iff (b : ByteArray) (i j : Nat) : same4 b i j = true ↔ Agree b i j 4 := by
  have hn : ∀ k, byteAt b (i + k) = byteAt b (j + k) ↔ natAt b (i + k) = natAt b (j + k) :=
    fun k => natAt_eq_iff.symm
  rw [same4, beq_iff_eq, ← UInt32.toNat_inj, word32_toNat, word32_toNat]
  have a0 := natAt_lt b i
  have a1 := natAt_lt b (i + 1)
  have a2 := natAt_lt b (i + 2)
  have b0 := natAt_lt b j
  have b1 := natAt_lt b (j + 1)
  have b2 := natAt_lt b (j + 2)
  constructor
  · intro h k hk
    rw [hn]
    obtain rfl | rfl | rfl | rfl : k = 0 ∨ k = 1 ∨ k = 2 ∨ k = 3 := by omega
    · rw [add_zero, add_zero]
      omega
    all_goals omega
  · intro h
    have h0 := (hn 0).1 (h 0 (by omega))
    have h1 := (hn 1).1 (h 1 (by omega))
    have h2 := (hn 2).1 (h 2 (by omega))
    have h3 := (hn 3).1 (h 3 (by omega))
    simp only [add_zero] at h0
    omega

theorem same8_iff (b : ByteArray) (i j : Nat) : same8 b i j = true ↔ Agree b i j 8 := by
  have e (i j : Nat) : le32 b i = le32 b j ↔ Agree b i j 4 := by
    rw [← same4_iff, same4, beq_iff_eq, ← UInt32.toNat_inj, le32, le32]
  have hi := le32_lt b i
  have hj := le32_lt b j
  rw [same8, beq_iff_eq, ← UInt64.toNat_inj, word64_toNat, word64_toNat]
  constructor
  · intro h
    exact ((e i j).1 (by omega)).append ((e (i + 4) (j + 4)).1 (by omega))
  · intro h
    have h0 := (e i j).2 (h.mono (by omega))
    have h4 : Agree b (i + 4) (j + 4) 4 := fun k hk => by
      simpa only [add_assoc] using h (4 + k) (by omega)
    rw [h0, (e (i + 4) (j + 4)).2 h4]

theorem agreementFrom_spec (b : ByteArray) (i j n fuel : Nat) (h : Agree b i j n) :
    n ≤ agreementFrom b i j n fuel ∧ agreementFrom b i j n fuel ≤ n + fuel ∧
      Agree b i j (agreementFrom b i j n fuel) := by
  induction fuel generalizing n with
  | zero => exact ⟨le_rfl, le_rfl, h⟩
  | succ fuel ih =>
    rw [agreementFrom]
    split
    · rename_i he
      have h1 : Agree b (i + n) (j + n) 1 := fun k hk => by
        obtain rfl : k = 0 := by omega
        simpa using he
      obtain ⟨hl, hu, ha⟩ := ih (n + 1) (h.append h1)
      exact ⟨by omega, by omega, ha⟩
    · exact ⟨le_rfl, by omega, h⟩

theorem agreementWords_spec (b : ByteArray) (i j n fuel words : Nat) (h : Agree b i j n) (hw : 8 * words ≤ fuel) :
    n ≤ agreementWords b i j n fuel words ∧ agreementWords b i j n fuel words ≤ n + fuel ∧
      Agree b i j (agreementWords b i j n fuel words) := by
  induction words generalizing n fuel with
  | zero => exact agreementFrom_spec b i j n fuel h
  | succ words ih =>
    rw [agreementWords]
    split
    · rename_i he
      obtain ⟨hl, hu, ha⟩ := ih (n + 8) (fuel - 8) (h.append ((same8_iff b _ _).1 he)) (by omega)
      exact ⟨by omega, by omega, ha⟩
    · exact agreementFrom_spec b i j n fuel h

theorem agree_agreement (b : ByteArray) (i j limit : Nat) : Agree b i j (agreement b i j limit) :=
  (agreementWords_spec b i j 0 _ _ (.nil b i j) (by omega)).2.2

theorem agreement_le (b : ByteArray) (i j limit : Nat) : agreement b i j limit ≤ limit - i := by
  have h := (agreementWords_spec b i j 0 (limit - i) ((limit - i) / 8) (.nil b i j) (by omega)).2.1
  rwa [zero_add] at h

theorem agreementFrom_ne (b : ByteArray) (i j n fuel : Nat) (h : agreementFrom b i j n fuel < n + fuel) :
    byteAt b (i + agreementFrom b i j n fuel) ≠ byteAt b (j + agreementFrom b i j n fuel) := by
  induction fuel generalizing n with
  | zero => exact absurd h (lt_irrefl _)
  | succ fuel ih =>
    rw [agreementFrom] at h ⊢
    grind

theorem agreementWords_ne (b : ByteArray) (i j n fuel words : Nat) (hw : 8 * words ≤ fuel)
    (h : agreementWords b i j n fuel words < n + fuel) :
    byteAt b (i + agreementWords b i j n fuel words) ≠ byteAt b (j + agreementWords b i j n fuel words) := by
  induction words generalizing n fuel with
  | zero => exact agreementFrom_ne b i j n fuel h
  | succ words ih =>
    rw [agreementWords] at h ⊢
    split
    · grind
    simp_all [agreementFrom_ne]

/-- Agreement ends at a difference, or at the limit. -/
theorem agreement_ne (h : i + agreement b i j limit < limit) :
    byteAt b (i + agreement b i j limit) ≠ byteAt b (j + agreement b i j limit) :=
  agreementWords_ne b i j 0 _ _ (by omega) (by unfold agreement at h; omega)

theorem agreementBack_spec (b : ByteArray) (i j n fuel : Nat) (h : Agree b (i - n) (j - n) n) (hi : n + fuel ≤ i)
    (hj : n + fuel ≤ j) :
    agreementBack b i j n fuel ≤ n + fuel ∧
      Agree b (i - agreementBack b i j n fuel) (j - agreementBack b i j n fuel) (agreementBack b i j n fuel) := by
  induction fuel generalizing n with
  | zero => exact ⟨le_rfl, h⟩
  | succ fuel ih =>
    rw [agreementBack]
    split
    · rename_i he
      have h1 : Agree b (i - (n + 1)) (j - (n + 1)) (n + 1) := fun k hk => by
        rcases k with _ | k
        · simpa [Nat.sub_sub] using he
        · have e := h k (by omega)
          grind
      grind
    · exact ⟨by omega, h⟩

theorem backward_le (b : ByteArray) (i anchor j low : Nat) : backward b i anchor j low ≤ min (i - anchor) (j - low) := by
  have h := (agreementBack_spec b i j 0 (min (i - anchor) (j - low)) (.nil b _ _) (by omega) (by omega)).1
  rwa [zero_add] at h

theorem agree_backward (b : ByteArray) (i anchor j low : Nat) :
    Agree b (i - backward b i anchor j low) (j - backward b i anchor j low) (backward b i anchor j low) :=
  (agreementBack_spec b i j 0 (min (i - anchor) (j - low)) (.nil b _ _) (by omega) (by omega)).2

/-- Bytes that agree, with those that agree before and behind them. -/
theorem Agree.extend (hb : Agree b (p - k) (m - k) k) (hp : k ≤ p) (hm : k ≤ m)
    (h : Agree b p m n) (stop : Nat) : Agree b (p - k) (m - k) (k + n + agreement b (p + n) (m + n) stop) := by
  have ha := h.append (agree_agreement b (p + n) (m + n) stop)
  rw [add_assoc]
  refine hb.append ?_
  rwa [Nat.sub_add_cancel hp, Nat.sub_add_cancel hm]

end ZstCodec
