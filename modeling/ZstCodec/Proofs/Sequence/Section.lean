import ZstCodec.Proofs.Sequence.Tables

/-! # The sequences section

What is written of the sequences of a block, its reader takes apart again: their number, the three tables and the
stream (`write_spec`). -/

namespace ZstCodec.Sequence

open Fse (Matches)

variable {b : ByteArray} {i n v : Nat} {s : Strategy}

/-! ### The number of sequences -/

theorem readCount_writeCount (pre rest : ByteArray) (hn : n < 65536) :
    readCount (pre ++ (writeCount n ++ rest)) pre.size = .ok (n, pre.size + (writeCount n).size) := by
  have hright (i : Nat) : natAt (pre ++ (writeCount n ++ rest)) (pre.size + i) = natAt (writeCount n ++ rest) i := natAt_append_right _ _ _
  have hfirst := hright 0
  rw [add_zero] at hfirst
  unfold readCount
  by_cases h1 : n < 128
  · have hcount : writeCount n = ByteArray.empty.push n.toUInt8 := if_pos h1
    have hval : natAt (pre ++ (writeCount n ++ rest)) pre.size = n := by
      rw [hcount]
      exact natAt_push_append pre rest (by omega)
    simp_all
  by_cases h2 : n < 0x7F00
  · have hcount : writeCount n = (ByteArray.empty.push (n / 256 + 128).toUInt8).push (n % 256).toUInt8 := by
      rw [writeCount, if_neg h1, if_pos h2]
    have h2size : (writeCount n).size = 2 := by rw [hcount]; rfl
    have hval0 : natAt (pre ++ (writeCount n ++ rest)) pre.size = n / 256 + 128 := by
      rw [hfirst, natAt_append_left (by omega), hcount, natAt]
      exact Nat.mod_eq_of_lt (by omega)
    have hval1 : natAt (pre ++ (writeCount n ++ rest)) (pre.size + 1) = n % 256 := by
      rw [hright, natAt_append_left (by omega), hcount, natAt]
      exact Nat.mod_eq_of_lt (by omega)
    grind
  · have hcount : writeCount n = ByteArray.empty.push 255 ++ putLe .empty (n - 0x7F00) 2 := by
      rw [writeCount, if_neg h1, if_neg h2, putLe_eq_append]
    have h3size : (writeCount n).size = 3 := by
      rw [hcount, size_append, size_putLe]
      rfl
    have hval0 : natAt (pre ++ (writeCount n ++ rest)) pre.size = 255 := by
      rw [hfirst, natAt_append_left (by omega), hcount]
      rfl
    have hword : le16 (pre ++ (writeCount n ++ rest)) (pre.size + 1) = n - 0x7F00 := by
      rw [le16_append_right, le16_append_left (by omega), hcount]
      have := le16_append_right (ByteArray.empty.push 255) (putLe .empty (n - 0x7F00) 2) 0
      rw [le16_putLe (by omega)] at this
      exact this
    simp_all

/-! ### The header -/

theorem readHeader_none (h : readCount b i = .ok (0, b.size)) :
    readHeader b i before = .ok { count := 0, tables := none, next := b.size } := by
  unfold readHeader
  rw [h]
  simp only [bind, Except.bind, if_true]
  rfl

theorem ofBits_sources (l o m : Source) :
    Source.ofBits ((64 * l.bits + 16 * o.bits + 4 * m.bits) / 64) = l ∧
      Source.ofBits ((64 * l.bits + 16 * o.bits + 4 * m.bits) / 16 % 4) = o ∧
      Source.ofBits ((64 * l.bits + 16 * o.bits + 4 * m.bits) / 4 % 4) = m ∧
      (64 * l.bits + 16 * o.bits + 4 * m.bits) % 4 = 0 ∧ 64 * l.bits + 16 * o.bits + 4 * m.bits < 256 := by
  cases l <;> cases o <;> cases m <;> decide

theorem readHeader_some
    (hcount : readCount b i = .ok (n, i₁)) (hn : n ≠ 0) (hsize : i₁ < b.size)
    (hsources : natAt b i₁ = 64 * l.bits + 16 * o.bits + 4 * m.bits)
    (hl : readTable litLengthKind litLengthDecoder l (before.map (·.litLength)) b (i₁ + 1) = .ok (dl, i₂))
    (ho : readTable offsetKind offsetDecoder o (before.map (·.offset)) b i₂ = .ok (d₀, i₃))
    (hm : readTable matchLengthKind matchLengthDecoder m (before.map (·.matchLength)) b i₃ = .ok (dm, i₄)) :
    readHeader b i before = .ok { count := n, tables := some ⟨dl, d₀, dm⟩, next := i₄ } := by
  obtain ⟨el, eo, em, e0, -⟩ := ofBits_sources l o m
  unfold readHeader
  rw [hcount]
  simp only [bind, Except.bind]
  rw [if_neg hn, if_neg (by omega), hsources, e0, if_neg (by decide), el, hl]
  dsimp only
  rw [eo, ho]
  dsimp only
  rw [em, hm]
  rfl

/-! ### Shared tables -/

structure Tables.Shared (t : Tables) (reach : Nat) (before : Option Decoders) : Prop where
  litLength : t.litLength.Shared maxLitLengthCode (before.map (·.litLength))
  offset : t.offset.Shared reach (before.map (·.offset))
  matchLength : t.matchLength.Shared maxMatchLengthCode (before.map (·.matchLength))

variable {seqs : Array Seq} {old : Tables} {before : Option Decoders} {reach : Nat}

theorem mem_codesOf_litLength (h : v ∈ (codesOf seqs).litLength) : ∃ s ∈ seqs, litLengthCode s.litLength = v :=
  Array.mem_map.1 h

theorem mem_codesOf_offset (h : v ∈ (codesOf seqs).offset) : ∃ s ∈ seqs, offsetCode s.offsetValue = v :=
  Array.mem_map.1 h

theorem mem_codesOf_matchLength (h : v ∈ (codesOf seqs).matchLength) : ∃ s ∈ seqs, matchLengthCode s.matchLength = v :=
  Array.mem_map.1 h

/-- The tables chosen for the sequences are found behind their names. -/
theorem chooseTables_spec (hseqs : ∀ s ∈ seqs, Codable s) (hreach : ∀ s ∈ seqs, offsetCode s.offsetValue ≤ reach) (hne : seqs.size ≠ 0)
    (hlt : seqs.size < 65536) (hold : old.Shared reach before)
    (h : chooseTables (codesOf seqs) old s = some c) (pre rest : ByteArray) :
    ∃ d, readHeader (pre ++ (writeCount seqs.size ++ (c.head ++ rest))) pre.size before =
        .ok { count := seqs.size, tables := some d, next := pre.size + (writeCount seqs.size).size + c.head.size } ∧
      (∀ s ∈ seqs, Coded c.tables d s) ∧ c.tables.Shared reach (some d) := by
  obtain ⟨l, hl, h⟩ := Option.bind_eq_some_iff.1 h
  obtain ⟨o, ho, h⟩ := Option.bind_eq_some_iff.1 h
  obtain ⟨m, hm, h⟩ := Option.bind_eq_some_iff.1 h
  obtain rfl := Option.some.inj h
  have hls : (codesOf seqs).litLength.size = seqs.size := Array.size_map
  have hos : (codesOf seqs).offset.size = seqs.size := Array.size_map
  have hms : (codesOf seqs).matchLength.size = seqs.size := Array.size_map
  have hlc : ∀ v ∈ (codesOf seqs).litLength, v ≤ maxLitLengthCode := fun v hv => by
    obtain ⟨s, hs, rfl⟩ := mem_codesOf_litLength hv
    exact (litLengthCode_spec (hseqs s hs).litLength_lt).1
  have hoc : ∀ v ∈ (codesOf seqs).offset, v ≤ maxOffsetCode := fun v hv => by
    obtain ⟨s, hs, rfl⟩ := mem_codesOf_offset hv
    exact (hseqs s hs).offsetCode_le
  have hor : ∀ v ∈ (codesOf seqs).offset, v ≤ reach := fun v hv => by
    obtain ⟨s, hs, rfl⟩ := mem_codesOf_offset hv
    exact hreach s hs
  have hmc : ∀ v ∈ (codesOf seqs).matchLength, v ≤ maxMatchLengthCode := fun v hv => by
    obtain ⟨s, hs, rfl⟩ := mem_codesOf_matchLength hv
    exact (matchLengthCode_spec (hseqs s hs).matchLength_ge (hseqs s hs).matchLength_lt).1
  obtain ⟨dl, fl⟩ := chooseTable_spec litLengthKind_regular (by omega) (by omega) hlc hlc hold.litLength hl
  obtain ⟨d₀, f₀⟩ := chooseTable_spec offsetKind_regular (by omega) (by omega) hoc hor hold.offset ho
  obtain ⟨dm, fm⟩ := chooseTable_spec matchLengthKind_regular (by omega) (by omega) hmc hmc hold.matchLength hm
  obtain ⟨-, -, -, -, h256⟩ := ofBits_sources l.source o.source m.source
  generalize hsrc : ByteArray.empty.push (64 * l.source.bits + 16 * o.source.bits + 4 * m.source.bits).toUInt8 = src
  have hsrcSize : src.size = 1 := by rw [← hsrc]; rfl
  refine ⟨⟨dl, d₀, dm⟩, ?_, fun s hs => ⟨hseqs s hs, ?_, ?_, ?_⟩, fl.shared, f₀.shared, fm.shared⟩
  · -- the same bytes, cut at the place of each table
    generalize hb : pre ++ (writeCount seqs.size ++ (src ++ l.head ++ o.head ++ m.head ++ rest)) = b
    have hb₀ : b = pre ++ writeCount seqs.size ++ (src ++ (l.head ++ (o.head ++ (m.head ++ rest)))) := by
      rw [← hb]; simp only [append_assoc]
    have hb₁ : b = pre ++ writeCount seqs.size ++ src ++ (l.head ++ (o.head ++ (m.head ++ rest))) := by
      rw [← hb]; simp only [append_assoc]
    have hb₂ : b = pre ++ writeCount seqs.size ++ src ++ l.head ++ (o.head ++ (m.head ++ rest)) := by
      rw [← hb]; simp only [append_assoc]
    have hb₃ : b = pre ++ writeCount seqs.size ++ src ++ l.head ++ o.head ++ (m.head ++ rest) := by
      rw [← hb]; simp only [append_assoc]
    have hsize : b.size = pre.size + (writeCount seqs.size).size + 1 + l.head.size + o.head.size + m.head.size + rest.size := by
      rw [hb₃]
      simp only [size_append, hsrcSize]
      omega
    have hcount : readCount b pre.size = .ok (seqs.size, pre.size + (writeCount seqs.size).size) := by
      rw [← hb]
      exact readCount_writeCount _ _ hlt
    have hval : natAt b (pre.size + (writeCount seqs.size).size) = 64 * l.source.bits + 16 * o.source.bits + 4 * m.source.bits := by
      rw [hb₀, ← hsrc, ← size_append]
      exact natAt_push_append _ _ h256
    have h1 := fl.read (pre ++ writeCount seqs.size ++ src) (o.head ++ (m.head ++ rest))
    rw [← hb₁] at h1
    have h2 := f₀.read (pre ++ writeCount seqs.size ++ src ++ l.head) (m.head ++ rest)
    rw [← hb₂] at h2
    have h3 := fm.read (pre ++ writeCount seqs.size ++ src ++ l.head ++ o.head) rest
    rw [← hb₃] at h3
    simp only [size_append, hsrcSize] at h1 h2 h3 ⊢
    rw [readHeader_some hcount hne (by omega) hval h1 h2 h3]
    simp only [add_assoc]
  · exact fl.decodes _ (Array.mem_map_of_mem hs)
  · exact f₀.decodes _ (Array.mem_map_of_mem hs)
  · exact fm.decodes _ (Array.mem_map_of_mem hs)

/-- What a reader makes of a section: no sequences, or tables that decode them, and the stream. -/
inductive Opened (seqs : Array Seq) (old tables : Tables) (reach : Nat) (before : Option Decoders) (b : ByteArray) (i : Nat) : Prop
  | none (hempty : seqs.size = 0) (hsame : tables = old) (hread : readHeader b i before = .ok { count := 0, tables := .none, next := b.size })
  | some (d : Decoders) (next : Nat) (hne : seqs.size ≠ 0)
    (hread : readHeader b i before = .ok { count := seqs.size, tables := .some d, next })
    (hstream : slice b next b.size = writeStream tables seqs (codesOf seqs)) (hcoded : ∀ s ∈ seqs, Coded tables d s)
    (hshared : tables.Shared reach (.some d))

theorem write_spec (hseqs : ∀ s ∈ seqs, Codable s) (hreach : ∀ s ∈ seqs, offsetCode s.offsetValue ≤ reach)
    (hlt : seqs.size < 65536) (hold : old.Shared reach before)
    (h : write seqs old s = some (bytes, tables)) (pre : ByteArray) : Opened seqs old tables reach before (pre ++ bytes) pre.size := by
  unfold write at h
  dsimp only at h
  split at h
  case isTrue h0 =>
    obtain ⟨rfl, rfl⟩ := Prod.mk.inj (Option.some.inj h)
    have hcount := readCount_writeCount pre .empty hlt
    rw [append_empty, ← size_append, h0] at hcount
    rw [h0]
    exact .none h0 rfl (readHeader_none hcount)
  case isFalse hne =>
    obtain ⟨c, hc, h⟩ := Option.bind_eq_some_iff.1 h
    split at h
    · exact nomatch h
    obtain ⟨rfl, rfl⟩ := Prod.mk.inj (Option.some.inj h)
    obtain ⟨d, hread, hcoded, hshared⟩ := chooseTables_spec hseqs hreach hne hlt hold hc pre (writeStream c.tables seqs (codesOf seqs))
    have hassoc : pre ++ (writeCount seqs.size ++ c.head ++ writeStream c.tables seqs (codesOf seqs)) =
        pre ++ writeCount seqs.size ++ c.head ++ writeStream c.tables seqs (codesOf seqs) := by simp only [append_assoc]
    refine .some d (pre.size + (writeCount seqs.size).size + c.head.size) hne ?_ ?_ hcoded hshared
    · rw [append_assoc]
      exact hread
    grind [slice_append_right]

end ZstCodec.Sequence
