import ZstCodec.Proofs.Frame.Header
import ZstCodec.Frame.Query

/-! # What is asked about a frame

The questions about a frame are answered from one reading of its first bytes (`read_cases`), so their answers fit
together (`queries_agree`). A reading looks at no byte behind the header (`read_congr`), and one that comes too early
names a length that is needed (`read_more`). -/

namespace ZstCodec.Frame

variable {a b : ByteArray} {h : Header} {format : Format} {i m n size : Nat}

/-! ### The bytes that a reading looks at -/

section

variable (hab : ∀ k < n, natAt a k = natAt b k)

include hab

theorem fieldAt_congr (hi : i + m ≤ n) : fieldAt a i m = fieldAt b i m := by
  induction m generalizing i with
  | zero => rfl
  | succ m ih => grind [fieldAt.eq_2]

theorem le32_congr (hi : i + 4 ≤ n) : le32 a i = le32 b i := by
  grind [le32_eq]

theorem readFields_congr (hn : headerSizeOf format (natAt a (format.prefixSize - 1)) ≤ n) :
    readFields format a size = readFields format b size := by
  have hpre : 0 < format.prefixSize := by cases format <;> decide
  have hd : natAt b (format.prefixSize - 1) = natAt a (format.prefixSize - 1) := by
    rw [headerSizeOf] at hn
    exact (hab _ (by omega)).symm
  unfold readFields
  rw [hd]
  generalize natAt a (format.prefixSize - 1) = d at hn
  rw [headerSizeOf] at hn
  have hone : contentWidth 1 = 2 := rfl
  have hid (j : Nat) (hj : j + dictIdWidth (d % 4) ≤ n) := fieldAt_congr (m := dictIdWidth (d % 4)) hab hj
  have hcontent (j : Nat) (hj : j + contentWidth (d / 64) ≤ n) := fieldAt_congr (m := contentWidth (d / 64)) hab hj
  by_cases hs : d / 32 % 2 = 1
  · by_cases h0 : d / 64 = 0
    · grind
    · by_cases h1 : d / 64 = 1
      · grind [le16_eq_fieldAt]
      · simp [hs, h0, h1, hid format.prefixSize (by omega), hcontent (format.prefixSize + dictIdWidth (d % 4)) (by omega)]
  · have hw := hab format.prefixSize (by omega)
    by_cases h1 : d / 64 = 1
    · rw [h1, hone] at hcontent hn
      simp [hs, h1, hw, le16_eq_fieldAt, hid (format.prefixSize + 1) (by omega),
        hcontent (format.prefixSize + 1 + dictIdWidth (d % 4)) (by omega)]
    · simp [hs, h1, hw, hid (format.prefixSize + 1) (by omega), hcontent (format.prefixSize + 1 + dictIdWidth (d % 4)) (by omega)]

end

/-- The largest number stands for an unknown size, so no size is that large. -/
theorem readFields_contentSize (hr : readFields format b size = .ok h) : h.contentSize ≠ some unknownSize := by
  unfold readFields at hr
  simp only [bind, Except.bind, pure, Except.pure, throw, throwThe, MonadExceptOf.throw] at hr
  split at hr
  · cases hr
  split at hr
  · cases hr
  cases hr
  generalize (if natAt b (format.prefixSize - 1) / 32 % 2 = 1 then format.prefixSize else format.prefixSize + 1) +
    dictIdWidth (natAt b (format.prefixSize - 1) % 4) = i
  have h1 := natAt_lt b i
  have h2 := natAt_lt b (i + 1)
  have hlarge : unknownSize = 2 ^ 64 - 1 := rfl
  grind [le16.eq_1]

/-! ### What a reading finds -/

/-- The ways in which a reading can end. -/
inductive Reads (b : ByteArray) : Except Fault Opening → Prop
  | refused (e : Fault) : Reads b (.error e)
  | short : b.size < 5 → Reads b (.ok (.more 5))
  | cut : 5 ≤ b.size → le32 b 0 = mark → b.size < headerSizeOf .marked (natAt b 4) →
      Reads b (.ok (.more (headerSizeOf .marked (natAt b 4))))
  | frame {h : Header} : 5 ≤ b.size → le32 b 0 = mark → headerSizeOf .marked (natAt b 4) ≤ b.size →
      readFields .marked b (headerSizeOf .marked (natAt b 4)) = .ok h → Reads b (.ok (.frame h))
  | skippableCut : 5 ≤ b.size → isSkippableMark (le32 b 0) = true → b.size < 8 → Reads b (.ok (.more 8))
  | skippable : isSkippableMark (le32 b 0) = true → 8 ≤ b.size → Reads b (.ok (.skippable (le32 b 4)))

theorem read_cases (b : ByteArray) : Reads b (read .marked b) := by
  have hpre : Format.marked.prefixSize = 5 := rfl
  have hskip : skippableHeaderSize = 8 := rfl
  rw [Frame.read, hpre, hskip]
  split
  · split
    · exact .refused _
    · exact .short ‹_›
  have h5 : 5 ≤ b.size := by omega
  split
  · split
    next hm =>
      split
      · exact .skippableCut h5 hm ‹_›
      · exact .skippable hm (by omega)
    · exact .refused _
  next hm =>
    have hm : le32 b 0 = mark := by_contra fun hne => hm ⟨rfl, hne⟩
    dsimp only
    split
    · exact .cut h5 hm ‹_›
    · rcases hf : readFields .marked b (headerSizeOf .marked (natAt b 4)) with e | h
      · exact .refused e
      · exact .frame h5 hm (Nat.le_of_not_lt ‹_›) hf

/-- A reading that finds a header finds it whatever stands behind it. -/
theorem read_congr (hr : read .marked a = .ok (.frame h)) (hb : headerSizeOf .marked (natAt a 4) ≤ b.size)
    (hab : ∀ k < headerSizeOf .marked (natAt a 4), natAt a k = natAt b k) : read .marked b = .ok (.frame h) := by
  have hc := read_cases a
  rw [hr] at hc
  obtain _ | _ | _ | ⟨h5, hm, hle, hf⟩ := hc
  have hpre : Format.marked.prefixSize = 5 := rfl
  have hsize : 5 ≤ headerSizeOf .marked (natAt a 4) := by
    rw [headerSizeOf, hpre]
    omega
  have hmark : le32 b 0 = mark := by rw [← le32_congr hab (by omega), hm]
  rw [Frame.read, hpre, if_neg (by omega), if_neg fun h => h.2 hmark, ← hab 4 (by omega), if_neg (by omega),
    ← readFields_congr hab le_rfl, hf]
  rfl

/-- Where a reading asks for `n` bytes, no reading of fewer succeeds. -/
theorem read_more (hr : read .marked b = .ok (.more n)) (hlt : (b ++ rest).size < n) :
    (∃ e, read .marked (b ++ rest) = .error e) ∨ ∃ m, read .marked (b ++ rest) = .ok (.more m) := by
  have hc := read_cases b
  rw [hr] at hc
  have hc' := read_cases (b ++ rest)
  generalize read .marked (b ++ rest) = r at hc' ⊢
  have hmark (h5 : 5 ≤ b.size) : le32 (b ++ rest) 0 = le32 b 0 :=
    (le32_congr (fun k hk => (natAt_append_left hk).symm) (by omega)).symm
  cases hc' with
  | refused e => exact .inl ⟨e, rfl⟩
  | short | cut | skippableCut => exact .inr ⟨_, rfl⟩
  | frame h5' hm' hle' =>
    cases hc with
    | short => omega
    | cut h5 hm hlt' =>
      grind [natAt_append_left]
    | skippableCut h5 hm =>
      rw [← hmark h5, hm'] at hm
      cases hm
  | skippable hm' hle' =>
    cases hc with
    | short => omega
    | cut h5 hm =>
      rw [hmark h5, hm] at hm'
      cases hm'
    | skippableCut => omega

/-! ### The answers -/

theorem queryContentSize_error (s : ByteArray) : (∃ e, queryContentSize s = .error e) ↔
    (∃ e, queryParameters s = .error e) ∨ ∃ p, queryParameters s = .ok p ∧ p.contentSize = unknownSize - 1 := by
  have hlarge : unknownSize = 2 ^ 64 - 1 := rfl
  have hc := read_cases s
  unfold queryContentSize queryParameters contentSize
  generalize read .marked s = r at hc
  cases hc with
  | refused | short | cut | skippableCut => simp
  | @frame h =>
    rcases hn : h.contentSize with _ | n
    · simp [hn, hlarge]
    · by_cases hlast : n = unknownSize - 1 <;> simp [hn, hlast]
  | skippable =>
    have := le32_lt s 4
    simp
    omega

theorem queryContentSize_value {n : Int} (hp : queryParameters s = .ok p)
    (hn : queryContentSize s = .ok n) :
    n = if isSkippableMark (le32 s 0) then 0 else if p.contentSize = unknownSize then -1 else (p.contentSize : Int) := by
  have hc := read_cases s
  unfold queryParameters at hp
  unfold queryContentSize contentSize at hn
  generalize read .marked s = r at hc hp hn
  cases hc with
  | refused | short | cut | skippableCut => cases hp
  | @frame h _ hm _ hf =>
    have hne := readFields_contentSize hf
    cases hp
    rw [hm, show isSkippableMark mark = false from rfl, if_neg (by decide)]
    dsimp only at hn ⊢
    rcases hc : h.contentSize with _ | m <;> rw [hc] at hn hne
    · cases hn
      rfl
    grind
  | skippable hm =>
    rw [if_pos hm]
    cases hn
    rfl

/-- The answers depend on the header alone, whose length can be asked for. -/
theorem queries_of_header (hp : queryParameters s = .ok p) (hm : isSkippableMark (le32 s 0) = false) :
    ∃ n, queryHeaderSize s = .ok n ∧ n ≤ s.size ∧ ∀ t, slice t 0 n = slice s 0 n →
      queryParameters t = .ok p ∧ queryContentSize t = queryContentSize s := by
  have hc := read_cases s
  unfold queryParameters queryContentSize contentSize at *
  generalize hr : read .marked s = r at hc hp ⊢
  cases hc with
  | refused | short | cut | skippableCut => cases hp
  | skippable hm' => cases hm.symm.trans hm'
  | frame h5 _ hle =>
    refine ⟨headerSizeOf .marked (natAt s 4), ?_, hle, fun t ht => ?_⟩
    · have hpre : Format.marked.prefixSize = 5 := rfl
      rw [queryHeaderSize, headerSize, hpre, if_neg (by omega)]
    · have hsize := congrArg ByteArray.size ht
      rw [size_slice, size_slice_of_le hle] at hsize
      have hread := read_congr (b := t) hr (by omega) fun k hk => by
        have hk' := congrArg (natAt · k) ht
        rw [natAt_slice_of_lt (by omega), natAt_slice_of_lt (by omega), zero_add] at hk'
        exact hk'.symm
      rw [hread]
      exact ⟨hp, rfl⟩

theorem queryParameters_short (hp : queryParameters s = .error (.headerTooShort n)) :
    s.size < n ∧ ∀ rest, (s ++ rest).size < n → ∃ e, queryParameters (s ++ rest) = .error e := by
  have hmore : read .marked s = .ok (.more n) := by
    rw [queryParameters] at hp
    rcases hr : read .marked s with e | ⟨m | h | m⟩ <;> rw [hr] at hp <;> cases hp
    rfl
  have hc := read_cases s
  rw [hmore] at hc
  refine ⟨by cases hc <;> assumption, fun rest hlt => ?_⟩
  rw [queryParameters]
  rcases read_more hmore hlt with ⟨e, hr⟩ | ⟨m, hr⟩ <;> rw [hr] <;> exact ⟨_, rfl⟩

/-- The answers about the frame at the start of some bytes fit together. The content size is told just where the
parameters are, but for the one number that is no size. The header settles all the answers, and one that is too short is
so for every answer. -/
theorem queries_agree (s : ByteArray) :
    ((∃ e, queryContentSize s = .error e) ↔
      (∃ e, queryParameters s = .error e) ∨ ∃ p, queryParameters s = .ok p ∧ p.contentSize = unknownSize - 1) ∧
    (∀ p n, queryParameters s = .ok p → queryContentSize s = .ok n →
      n = if isSkippableMark (le32 s 0) then 0 else if p.contentSize = unknownSize then -1 else (p.contentSize : Int)) ∧
    (∀ p, queryParameters s = .ok p → isSkippableMark (le32 s 0) = false →
      ∃ n, queryHeaderSize s = .ok n ∧ n ≤ s.size ∧ ∀ t, slice t 0 n = slice s 0 n →
        queryParameters t = .ok p ∧ queryContentSize t = queryContentSize s) ∧
    ∀ n, queryParameters s = .error (.headerTooShort n) →
      s.size < n ∧ ∀ rest, (s ++ rest).size < n → ∃ e, queryParameters (s ++ rest) = .error e :=
  ⟨queryContentSize_error s, fun _ _ => queryContentSize_value, fun _ => queries_of_header, fun _ => queryParameters_short⟩

end ZstCodec.Frame
