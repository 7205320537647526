import ZstCodec.Proofs.Fse.Table
import ZstCodec.Sequence.Encode
import ZstCodec.Sequence.Decode

/-! # The stream of the sequences

A number is its code's least number plus its extra bits. Sequences are written last one first: what a reader finds from
sequence `i` on depends only on the three states and the bits written up to there (`Resumes`). Every sequence put in
front keeps this (`readStream_writeStream`). -/

namespace ZstCodec.Sequence

open Fse (Matches)

variable {w : BitWriter} {ll ml n off : Nat} {s : Seq}

/-! ### Codes and extra bits -/

theorem litLengthCode_spec (h : n < 2 ^ 17) :
    litLengthCode n ≤ maxLitLengthCode ∧ litLengthBits.getD (litLengthCode n) 0 ≤ 16 ∧
      litLengthBases.getD (litLengthCode n) 0 + n % 2 ^ litLengthBits.getD (litLengthCode n) 0 = n := by
  have hsmall : ∀ n < 64, smallLitLengthCodes.getD n 0 ≤ maxLitLengthCode ∧ litLengthBits.getD (smallLitLengthCodes.getD n 0) 0 ≤ 16 ∧
      litLengthBases.getD (smallLitLengthCodes.getD n 0) 0 + n % 2 ^ litLengthBits.getD (smallLitLengthCodes.getD n 0) 0 = n := by
    decide +kernel
  have hlarge : ∀ k < 17, 6 ≤ k → litLengthBits.getD (k + 19) 0 = k ∧ litLengthBases.getD (k + 19) 0 = 2 ^ k := by decide +kernel
  rw [litLengthCode]
  split
  case isTrue hn => exact hsmall n hn
  case isFalse hn =>
    have hk := highBit_lt (by omega) h
    obtain ⟨hbits, hbase⟩ := hlarge _ hk (le_highBit (k := 6) (by omega))
    rw [hbits, hbase]
    exact ⟨by unfold maxLitLengthCode; omega, by omega, pow_highBit_add_mod (by omega)⟩

theorem matchLengthCode_spec (h3 : 3 ≤ n) (h : n < 2 ^ 17 + 3) :
    matchLengthCode n ≤ maxMatchLengthCode ∧ matchLengthBits.getD (matchLengthCode n) 0 ≤ 16 ∧
      matchLengthBases.getD (matchLengthCode n) 0 + (n - 3) % 2 ^ matchLengthBits.getD (matchLengthCode n) 0 = n := by
  have hsmall : ∀ m < 128, smallMatchLengthCodes.getD m 0 ≤ maxMatchLengthCode ∧ matchLengthBits.getD (smallMatchLengthCodes.getD m 0) 0 ≤ 16 ∧
      matchLengthBases.getD (smallMatchLengthCodes.getD m 0) 0 + m % 2 ^ matchLengthBits.getD (smallMatchLengthCodes.getD m 0) 0 = m + 3 := by
    decide +kernel
  have hlarge : ∀ k < 17, 7 ≤ k → matchLengthBits.getD (k + 36) 0 = k ∧ matchLengthBases.getD (k + 36) 0 = 2 ^ k + 3 := by decide +kernel
  rw [matchLengthCode]
  split
  case isTrue hn =>
    simp_all
  case isFalse hn =>
    have hk := highBit_lt (n := n - 3) (k := 17) (by omega) (by omega)
    obtain ⟨hbits, hbase⟩ := hlarge _ hk (le_highBit (k := 7) (by omega))
    have hsum := pow_highBit_add_mod (n := n - 3) (by omega)
    grind [maxMatchLengthCode]

/-- The numbers of the sequence have codes. -/
structure Codable (s : Seq) : Prop where
  litLength_lt : s.litLength < 2 ^ 17
  matchLength_ge : 3 ≤ s.matchLength
  matchLength_lt : s.matchLength < 2 ^ 17 + 3
  offsetValue_pos : 0 < s.offsetValue
  offsetValue_lt : s.offsetValue < 2 ^ 32

theorem Codable.offsetCode_le (h : Codable s) : offsetCode s.offsetValue ≤ maxOffsetCode := by
  have := highBit_lt h.offsetValue_pos h.offsetValue_lt
  unfold maxOffsetCode offsetCode
  omega

/-- The field added last is read and added to its base. -/
theorem extra_addNat (hw : w.Sound) (hn : n ≤ BitWriter.mostBits) (hc : c.Over (w.addNat v n))
    (base : Nat) : ∃ c' : BitCursor, extra base n c = (base + v % 2 ^ n, c') ∧ c'.Over w := by
  obtain ⟨hpeek, hover⟩ := hc.peekHigh hw hn
  rw [extra]
  split
  case isTrue h0 =>
    subst h0
    refine ⟨c, by grind, ?_⟩
    have : c.skip 0 = c := by simp [BitCursor.skip]
    rwa [this] at hover
  simp_all

/-! ### Resolved sequences -/

def Seq.resolved (r : Reps) (s : Seq) : Copy :=
  { literals := s.litLength, offset := (r.resolve s.litLength s.offsetValue).1, length := s.matchLength }

def resolveAll (r : Reps) : List Seq → List Copy
  | [] => []
  | s :: seqs => Seq.resolved r s :: resolveAll (r.after s.litLength s.offsetValue) seqs

def repsAfter (r : Reps) : List Seq → Reps
  | [] => r
  | s :: seqs => repsAfter (r.after s.litLength s.offsetValue) seqs

@[simp] theorem length_resolveAll (r : Reps) (seqs : List Seq) : (resolveAll r seqs).length = seqs.length := by
  induction seqs generalizing r with
  | nil => rfl
  | cons s seqs ih => rw [resolveAll, List.length_cons, ih, List.length_cons]

/-! ### Reading what was written -/

variable {t : Tables} {d : Decoders} {seqs : Array Seq}

/-- The tables code the sequence and the reader's tables decode it. -/
structure Coded (t : Tables) (d : Decoders) (s : Seq) : Prop where
  codable : Codable s
  litLength : Matches t.litLength.encoder d.litLength (litLengthCode s.litLength)
  offset : Matches t.offset.encoder d.offset (offsetCode s.offsetValue)
  matchLength : Matches t.matchLength.encoder d.matchLength (matchLengthCode s.matchLength)

def writeSeqExtra (w : BitWriter) (s : Seq) : BitWriter :=
  writeExtra w s (litLengthCode s.litLength) (offsetCode s.offsetValue) (matchLengthCode s.matchLength)

/-- A reader that knows the codes of a sequence reads its numbers. -/
theorem extras_writeSeqExtra (h : Codable s) (hw : w.Sound) :
    (writeSeqExtra w s).Sound ∧ ∀ c : BitCursor, c.Over (writeSeqExtra w s) → ∃ c₁ c₂ c₃ : BitCursor,
      extra (2 ^ offsetCode s.offsetValue) (offsetCode s.offsetValue) c = (s.offsetValue, c₁) ∧
      extra (matchLengthBases.getD (matchLengthCode s.matchLength) 0) (matchLengthBits.getD (matchLengthCode s.matchLength) 0) c₁ =
        (s.matchLength, c₂) ∧
      extra (litLengthBases.getD (litLengthCode s.litLength) 0) (litLengthBits.getD (litLengthCode s.litLength) 0) c₂ = (s.litLength, c₃) ∧
      c₃.Over w := by
  obtain ⟨-, hll, hllSum⟩ := litLengthCode_spec h.litLength_lt
  obtain ⟨-, hml, hmlSum⟩ := matchLengthCode_spec h.matchLength_ge h.matchLength_lt
  have hoff : offsetCode s.offsetValue ≤ BitWriter.mostBits := le_trans h.offsetCode_le (by decide)
  have hll' : litLengthBits.getD (litLengthCode s.litLength) 0 ≤ BitWriter.mostBits := le_trans hll (by decide)
  have hml' : matchLengthBits.getD (matchLengthCode s.matchLength) 0 ≤ BitWriter.mostBits := le_trans hml (by decide)
  have h1 := hw.addNat s.litLength hll'
  have h2 := h1.addNat (s.matchLength - 3) hml'
  refine ⟨h2.addNat s.offsetValue hoff, fun c hc => ?_⟩
  obtain ⟨c₁, he₁, hc₁⟩ := extra_addNat h2 hoff hc (2 ^ offsetCode s.offsetValue)
  obtain ⟨c₂, he₂, hc₂⟩ := extra_addNat h1 hml' hc₁ (matchLengthBases.getD (matchLengthCode s.matchLength) 0)
  obtain ⟨c₃, he₃, hc₃⟩ := extra_addNat hw hll' hc₂ (litLengthBases.getD (litLengthCode s.litLength) 0)
  grind [pow_highBit_add_mod, offsetCode.eq_1, Codable.offsetValue_pos]

/-- States and bits written so far determine the sequences `rest`, whose first the states name. -/
structure Resumes (t : Tables) (d : Decoders) (rest : List Seq) (w : BitWriter) (ll off ml : Nat) : Prop where
  sound : w.Sound
  ll_mem : ll ∈ t.litLength.encoder.states
  off_mem : off ∈ t.offset.encoder.states
  ml_mem : ml ∈ t.matchLength.encoder.states
  read : ∀ (c : BitCursor) (r : Reps) (out : Array Copy), c.Over w → ∃ c' : BitCursor,
    readCopies d c (ll % 2 ^ t.litLength.encoder.log) (off % 2 ^ t.offset.encoder.log) (ml % 2 ^ t.matchLength.encoder.log) r out rest.length =
      (out ++ (resolveAll r rest).toArray, c', repsAfter r rest) ∧ c'.Over {}

/-- The last sequence is carried by the states and its extra bits. -/
theorem resumes_last (h : Coded t d s) :
    Resumes t d [s] (writeSeqExtra {} s) (t.litLength.encoder.init (litLengthCode s.litLength))
      (t.offset.encoder.init (offsetCode s.offsetValue)) (t.matchLength.encoder.init (matchLengthCode s.matchLength)) := by
  obtain ⟨hll, hllSym⟩ := h.litLength.init
  obtain ⟨hoff, hoffSym⟩ := h.offset.init
  obtain ⟨hml, hmlSym⟩ := h.matchLength.init
  obtain ⟨hsound, hextra⟩ := extras_writeSeqExtra h.codable BitWriter.sound_empty
  refine ⟨hsound, hll, hoff, hml, fun c r out hc => ?_⟩
  obtain ⟨c₁, c₂, c₃, he₁, he₂, he₃, hc₃⟩ := hextra c hc
  refine ⟨c₃, ?_, hc₃⟩
  rw [List.length_singleton, readCopies, hllSym, hoffSym, hmlSym]
  rw [he₁]
  dsimp only
  rw [he₂]
  rw [he₃, if_pos rfl]
  rfl

theorem Resumes.prior (h : Resumes t d rest w ll off ml) (hne : rest ≠ [])
    (hs : Coded t d s) : ∃ w₁ w₂ w₃ off' ml' ll', t.offset.encoder.encode w off (offsetCode s.offsetValue) = (w₁, off') ∧
      t.matchLength.encoder.encode w₁ ml (matchLengthCode s.matchLength) = (w₂, ml') ∧
      t.litLength.encoder.encode w₂ ll (litLengthCode s.litLength) = (w₃, ll') ∧
      Resumes t d (s :: rest) (writeSeqExtra w₃ s) ll' off' ml' := by
  obtain ⟨w₁, off', he₁, hw₁, hoff, hoffSym, hoffNext⟩ := hs.offset.next h.off_mem h.sound
  obtain ⟨w₂, ml', he₂, hw₂, hml, hmlSym, hmlNext⟩ := hs.matchLength.next h.ml_mem hw₁
  obtain ⟨w₃, ll', he₃, hw₃, hll, hllSym, hllNext⟩ := hs.litLength.next h.ll_mem hw₂
  obtain ⟨hsound, hextra⟩ := extras_writeSeqExtra hs.codable hw₃
  refine ⟨w₁, w₂, w₃, off', ml', ll', he₁, he₂, he₃, hsound, hll, hoff, hml, fun c r out hc => ?_⟩
  obtain ⟨c₁, c₂, c₃, hx₁, hx₂, hx₃, hc₃⟩ := hextra c hc
  -- the transitions are undone in the order opposite to the one they were made in
  obtain ⟨c₄, hn₃, hc₄⟩ := hllNext c₃ hc₃
  obtain ⟨c₅, hn₂, hc₅⟩ := hmlNext c₄ hc₄
  obtain ⟨c₆, hn₁, hc₆⟩ := hoffNext c₅ hc₅
  obtain ⟨c', hread, hc'⟩ := h.read c₆ (r.after s.litLength s.offsetValue) (out.push (Seq.resolved r s)) hc₆
  have hmore : rest.length ≠ 0 := fun h0 => hne (List.length_eq_zero_iff.1 h0)
  refine ⟨c', ?_, hc'⟩
  rw [List.length_cons, readCopies, hllSym, hoffSym, hmlSym]
  rw [hx₁]
  dsimp only
  rw [hx₂]
  rw [hx₃, if_neg hmore]
  rw [hn₃]
  rw [hn₂]
  rw [hn₁]
  rw [resolveAll, repsAfter]
  have hlist : out ++ (Seq.resolved r s :: resolveAll (r.after s.litLength s.offsetValue) rest).toArray =
      out.push (Seq.resolved r s) ++ (resolveAll (r.after s.litLength s.offsetValue) rest).toArray := by simp
  rw [hlist]
  exact hread

theorem getD_mem_array {α : Type} {a : Array α} {x : α} (h : i < a.size) : a.getD i x ∈ a := by
  simp_all

theorem getD_codesOf (seqs : Array Seq) (h : n < seqs.size) :
    (codesOf seqs).litLength.getD n 0 = litLengthCode (seqs.getD n default).litLength ∧
      (codesOf seqs).offset.getD n 0 = offsetCode (seqs.getD n default).offsetValue ∧
      (codesOf seqs).matchLength.getD n 0 = matchLengthCode (seqs.getD n default).matchLength := by
  simp_all [codesOf]

theorem drop_eq_getD_cons (h : n < seqs.size) : seqs.toList.drop n = seqs.getD n default :: seqs.toList.drop (n + 1) := by
  simp_all [List.drop_eq_getElem_cons]

theorem Resumes.writeStates (hcoded : ∀ s ∈ seqs, Coded t d s) (hn : n < seqs.size)
    (h : Resumes t d (seqs.toList.drop n) w ll off ml) :
    ∃ w' ll' off' ml', Sequence.writeStates t seqs (codesOf seqs) w ll off ml n = (w', ll', off', ml') ∧
      Resumes t d seqs.toList w' ll' off' ml' := by
  induction n generalizing w ll off ml with
  | zero => exact ⟨w, ll, off, ml, rfl, by rwa [List.drop_zero] at h⟩
  | succ n ih =>
    have hne : seqs.toList.drop (n + 1) ≠ [] := by
      rw [drop_eq_getD_cons hn]
      exact List.cons_ne_nil _ _
    obtain ⟨hll, hoff, hml⟩ := getD_codesOf seqs (n := n) (by omega)
    obtain ⟨w₁, w₂, w₃, off', ml', ll', he₁, he₂, he₃, h'⟩ := h.prior hne (hcoded _ (getD_mem_array (i := n) (x := default) (by omega)))
    rw [Sequence.writeStates, hll, hoff, hml]
    rw [he₁]
    dsimp only
    rw [he₂]
    rw [he₃]
    rw [← drop_eq_getD_cons (by omega)] at h'
    exact ih (by omega) h'

theorem readStream_writeStream (hne : seqs.size ≠ 0) (hcoded : ∀ s ∈ seqs, Coded t d s) (r : Reps) :
    ∃ c, readStream d (writeStream t seqs (codesOf seqs)) seqs.size r = .ok ((resolveAll r seqs.toList).toArray, c, repsAfter r seqs.toList) ∧
      c.atEnd = true := by
  obtain ⟨n, hsize⟩ : ∃ n, seqs.size = n + 1 := ⟨seqs.size - 1, by omega⟩
  have hlast := hcoded _ (getD_mem_array (i := n) (x := default) (by omega))
  have hdrop : seqs.toList.drop n = [seqs.getD n default] := by
    rw [drop_eq_getD_cons (by omega), List.drop_eq_nil_of_le (by simp [hsize])]
  have hend := resumes_last hlast
  rw [← hdrop] at hend
  obtain ⟨w, ll, off, ml, hstates, hres⟩ := hend.writeStates hcoded (by omega)
  obtain ⟨h1, hml⟩ := hlast.matchLength.start ml hres.sound
  obtain ⟨h2, hoff⟩ := hlast.offset.start off h1
  obtain ⟨h3, hll⟩ := hlast.litLength.start ll h2
  obtain ⟨c, hstart, hc⟩ := BitCursor.start_close h3
  obtain ⟨c₁, hi₁, hc₁⟩ := hll c hc
  obtain ⟨c₂, hi₂, hc₂⟩ := hoff c₁ hc₁
  obtain ⟨c₃, hi₃, hc₃⟩ := hml c₂ hc₂
  obtain ⟨c', hread, hc'⟩ := hres.read c₃ r #[] hc₃
  obtain ⟨hllCode, hoffCode, hmlCode⟩ := getD_codesOf seqs (n := n) (by omega)
  have hstream : writeStream t seqs (codesOf seqs) =
      (t.litLength.encoder.finish (t.offset.encoder.finish (t.matchLength.encoder.finish w ml) off) ll).close := by
    rw [writeStream, hsize, Nat.add_sub_cancel, hllCode, hoffCode, hmlCode]
    rw [show writeExtra {} (seqs.getD n default) (litLengthCode (seqs.getD n default).litLength)
      (offsetCode (seqs.getD n default).offsetValue) (matchLengthCode (seqs.getD n default).matchLength) =
      writeSeqExtra {} (seqs.getD n default) from rfl, hstates]
  refine ⟨c', ?_, ?_⟩
  · simp_all [readStream.eq_1]
  · rw [BitCursor.atEnd, hc'.pos]
    rfl

end ZstCodec.Sequence
