import ZstCodec.Proofs.Match.Explains
import ZstCodec.Proofs.Sequence.Stream
import ZstCodec.Block.Encode
import ZstCodec.Block.Decode

/-! # Sequences carried out

A reader whose history ends with the content up to `i` gets, from sequences that explain the content up to `j`, the
content up to `j`: a match copies bytes that agree with those at its own place (`copyMatch_eq`). Each sequence takes the
next few bytes of the literals (`literalsOf`). -/

namespace ZstCodec.Sequence

open Match

variable {taken : ByteArray} {seqs : List Seq} {n rest : Nat} {r r' : Reps} {s : Seq}

/-! ### Histories -/

/-- The history ends with the content from `low` up to `i`. -/
structure EndsWith (history content : ByteArray) (low i : Nat) : Prop where
  size : i ≤ history.size + low
  byte : ∀ k, low ≤ k → k < i → byteAt history (history.size + k - i) = byteAt content k

variable {history content : ByteArray} {low window i j p : Nat}

theorem slice_succ (h : i < content.size) : slice content i (i + 1) = ByteArray.empty.push (byteAt content i) := by
  refine ext_byteAt (by simp [size_push]; omega) fun k hk => ?_
  rw [size_slice] at hk
  rw [byteAt_slice_of_lt (by omega), show k = 0 by omega]
  rfl

namespace EndsWith

theorem append (h : EndsWith history content low i) (hij : i ≤ j) (hj : j ≤ content.size) :
    EndsWith (history ++ slice content i j) content low j := by
  have hs := size_slice_of_le (i := i) hj
  have hsize := h.size
  refine ⟨by rw [size_append, hs]; omega, fun k hlow hk => ?_⟩
  rw [size_append, hs]
  rcases lt_or_ge k i with hki | hki
  · rw [show history.size + (j - i) + k - j = history.size + k - i by omega, byteAt_append_left (by omega)]
    exact h.byte k hlow hki
  · rw [show history.size + (j - i) + k - j = history.size + (k - i) by omega, byteAt_append_right, byteAt_slice_of_lt (by omega),
      show i + (k - i) = k by omega]

theorem start (history content : ByteArray) (low : Nat) : EndsWith history content low low :=
  ⟨by omega, fun k hlow hk => absurd hk (by omega)⟩

end EndsWith

/-- A copy of bytes that agree with those at the place of the copy is the content there. -/
theorem copyMatch_eq (h : EndsWith history content low p) (hw : Within low window p o) (ha : Agree content p (p - o) n)
    (hn : p + n ≤ content.size) : copyMatch history o n = history ++ slice content p (p + n) := by
  have hlow := hw.low_le
  have hpos := hw.pos
  unfold copyMatch
  induction n generalizing history p with
  | zero => simp_all [slice_self, copyBytes.eq_1]
  | succ n ih =>
    have hsize := h.size
    have hbyte : byteAt history (history.size - o) = byteAt content p := by
      have h1 := h.byte (p - o) (by omega) (by omega)
      have h2 := ha 0 (by omega)
      rw [add_zero, add_zero] at h2
      rw [h2, ← h1]
      congr 1
      omega
    have hpush : history.push (byteAt content p) = history ++ slice content p (p + 1) := by
      rw [slice_succ (by omega), push_eq_append, push_eq_append, empty_append]
    have hnext : EndsWith (history ++ slice content p (p + 1)) content low (p + 1) := h.append (by omega) (by omega)
    have hplace : history.size - o + 1 = (history ++ slice content p (p + 1)).size - o := by
      rw [size_append, size_slice_of_le (by omega)]
      omega
    have hagree : Agree content (p + 1) (p + 1 - o) n := fun k hk => by
      have := ha (k + 1) (by omega)
      grind
    rw [copyBytes, hbyte, hpush, hplace, ih hnext (hw.mono (by omega)) hagree (by omega) (by omega), append_assoc,
      slice_append_slice (by omega) (by omega), show p + 1 + n = p + (n + 1) by omega]

/-! ### Literals -/

def literalsOf (content : ByteArray) (i : Nat) : List Seq → ByteArray
  | [] => .empty
  | s :: seqs => slice content i (i + s.litLength) ++ literalsOf content (i + s.litLength + s.matchLength) seqs

theorem gather_eq (h : Explains content low window r i seqs j r') (out : ByteArray) :
    Block.gather content seqs i out = (out ++ literalsOf content i seqs, j) := by
  induction h generalizing out with
  | nil => rw [Block.gather, literalsOf, append_empty]
  | cons _ _ ih => rw [Block.gather, ih, copySlice_end, literalsOf, append_assoc]

theorem literals_eq {seqs : Array Seq} (hrest : rest ≤ j)
    (h : Explains content low window r i seqs.toList (j - rest) r') :
    Block.Cut.literals ⟨i, seqs, rest⟩ content = literalsOf content i seqs.toList ++ slice content (j - rest) j := by
  rw [Block.Cut.literals]
  rw [gather_eq h]
  simp_all [copySlice_end]

theorem size_literalsOf_le (h : Explains content low window r i seqs j r') :
    (literalsOf content i seqs).size ≤ j - i := by
  induction h with
  | nil => exact Nat.zero_le _
  | cons _ hrest ih =>
    have := hrest.le
    grind [size_slice, literalsOf.eq_2]

theorem explains_nil (h : Explains content low window r i [] j r') : j = i ∧ r' = r := by
  cases h
  exact ⟨rfl, rfl⟩

section

variable (h : Explains content low window r i seqs j r')

include h

theorem repsAfter_eq : repsAfter r seqs = r' := by
  induction h with
  | nil => rfl
  | cons _ _ ih => rw [repsAfter, ih]

/-- There are three bytes at least for each sequence. -/
theorem length_seqs_le : i + 3 * seqs.length ≤ j := by
  induction h with
  | nil => simp
  | cons hf _ ih =>
    grind [Fits.least]

theorem length_le_of_mem (hs : s ∈ seqs) :
    3 ≤ s.matchLength ∧ s.litLength + s.matchLength ≤ j - i ∧ 0 < s.offsetValue := by
  induction h with
  | nil => exact absurd hs (by simp)
  | cons hf hrest ih =>
    have hle := hrest.le
    rcases List.mem_cons.1 hs with rfl | hs
    · exact ⟨hf.least, by omega, hf.code_pos⟩
    grind

end

/-! ### Bounds that let a block pass -/

/-- The bounds let sequences pass from the content at `i` to that at `j`, with matches within the window. -/
structure Bounds.Passes (m : Bounds) (low window : Nat) (literals history : ByteArray) (i j : Nat) : Prop where
  limit : history.size + (j - i) ≤ m.limit
  reach : ∀ p o, i ≤ p → p ≤ j → Within low window p o → m.low + o + i ≤ history.size + p
  ahead : ∀ waiting place, m.ahead = some (waiting, place) → history.size + (j - i) ≤ place + literals.size

variable {m : Bounds} {literals : ByteArray}

theorem Bounds.Passes.append (h : m.Passes low window literals history i j) (hp : i ≤ p) (hj : p ≤ j) (hs : p ≤ content.size) :
    m.Passes low window literals (history ++ slice content i p) p j := by
  have hsize : (history ++ slice content i p).size = history.size + (p - i) := by rw [size_append, size_slice_of_le hs]
  refine ⟨?_, fun q o hq hqj hw => ?_, fun waiting place ha => ?_⟩
  · have := h.limit
    omega
  · have := h.reach q o (by omega) hqj hw
    omega
  · have := h.ahead waiting place ha
    omega

/-- What is appended so far does not reach the literals that are still to come. -/
theorem Bounds.Passes.not_overruns (h : m.Passes low window literals history i j) (hleft : literals.size - used ≤ j - i) :
    m.overruns history.size used n = false := by
  unfold Bounds.overruns
  split
  · rfl
  · rename_i waiting place ha
    have := h.ahead waiting place ha
    grind

theorem run_resolved {rest : ByteArray} (htail : EndsWith history content low i) (hf : Fits content low window r i s)
    (hj : i + s.litLength + s.matchLength ≤ j) (hjs : j ≤ content.size) (hpass : m.Passes low window literals history i j)
    (hlits : literals = taken ++ (slice content i (i + s.litLength) ++ rest)) (hleft : s.litLength + rest.size ≤ j - i) :
    (Seq.resolved r s).run m literals history taken.size = .ok (history ++ slice content i (i + s.litLength + s.matchLength)) := by
  have hslice : (slice content i (i + s.litLength)).size = s.litLength := by
    rw [size_slice_of_le (by omega)]
    omega
  have hsize : literals.size = taken.size + (s.litLength + rest.size) := by
    rw [hlits, size_append, size_append, hslice]
  have hlimit := hpass.limit
  have hreach := hpass.reach (i + s.litLength) _ (by omega) (by omega) hf.within
  have hpos := hf.within.pos
  have htake : takeOver history literals taken.size s.litLength = history ++ slice content i (i + s.litLength) := by
    have hmid := slice_middle taken (slice content i (i + s.litLength)) rest
    rw [takeOver, copySlice_end, hlits, ← append_assoc]
    rw [hslice] at hmid
    rw [hmid]
  rw [Copy.run, Seq.resolved]
  dsimp only
  rw [if_neg (by omega), if_neg (by omega), hpass.not_overruns (by omega), if_neg (by decide), if_neg (by omega), htake,
    copyMatch_eq (htail.append (by omega) (by omega)) hf.within hf.agree (by omega), append_assoc,
    slice_append_slice (by omega) (by omega)]

theorem runCopies_explains (copies : Array Copy) (hex : Explains content low window r i seqs p r')
    (hp : p ≤ j) (hjs : j ≤ content.size) {rest : ByteArray} (hrest : rest.size ≤ j - p) :
    ∀ {k : Nat} {history taken : ByteArray}, EndsWith history content low i → m.Passes low window literals history i j →
      copies.toList.drop k = resolveAll r seqs → literals = taken ++ (literalsOf content i seqs ++ rest) →
      runCopies m literals copies k history taken.size seqs.length =
        .ok (history ++ slice content i p, taken.size + (literalsOf content i seqs).size) := by
  induction hex with
  | nil r i =>
    intro k history taken _ _ _ _
    rw [List.length_nil, runCopies, slice_self, append_empty]
    rfl
  | @cons r r' i p s seqs hf hmore ih =>
    intro k history taken htail hpass hcopies hlits
    have hle := hmore.le
    have hslice : (slice content i (i + s.litLength)).size = s.litLength := by
      rw [size_slice_of_le (by omega)]
      omega
    rw [resolveAll] at hcopies
    have hk : k < copies.size := by
      have := congrArg List.length hcopies
      rw [List.length_drop, List.length_cons, Array.length_toList] at this
      omega
    rw [List.drop_eq_getElem_cons (by simpa using hk), Array.getElem_toList, List.cons.injEq] at hcopies
    rw [literalsOf, append_assoc] at hlits
    have hleft := size_literalsOf_le hmore
    have hrun := run_resolved htail hf (by omega) hjs hpass hlits (by rw [size_append]; omega)
    have hlits' : literals = taken ++ slice content i (i + s.litLength) ++
        (literalsOf content (i + s.litLength + s.matchLength) seqs ++ rest) := by rw [hlits, append_assoc]
    have hih := ih hp hrest (k := k + 1) (htail.append (by omega) (by omega)) (hpass.append (by omega) (by omega) (by omega)) hcopies.2 hlits'
    rw [size_append, hslice] at hih
    rw [List.length_cons, runCopies, dif_pos hk]
    dsimp only
    rw [hcopies.1, hrun]
    dsimp only
    rw [show (Seq.resolved r s).literals = s.litLength from rfl, hih, append_assoc, slice_append_slice (by omega) (by omega),
      literalsOf, size_append, hslice, add_assoc]

theorem runCopies_add (m : Bounds) (literals : ByteArray) (copies : Array Copy) (a b : Nat) :
    ∀ (k : Nat) (history : ByteArray) (used : Nat), runCopies m literals copies k history used (a + b) =
      (runCopies m literals copies k history used a).bind fun x => runCopies m literals copies (k + a) x.1 x.2 b := by
  induction a with
  | zero =>
    intro k history used
    rw [zero_add, add_zero]
    rfl
  | succ a ih =>
    intro k history used
    rw [Nat.succ_add_eq_add_succ, Nat.add_succ, runCopies, runCopies]
    split
    · dsimp only
      cases copies[k].run m literals history used with
      | error e => rfl
      | ok history => grind
    · change _ = runCopies m literals copies (k + (a + 1)) history used b
      cases b with
      | zero => rfl
      | succ b => rw [runCopies, dif_neg (by omega)]

/-- When the test is made does not matter to a stream that ends properly. -/
theorem runAll_ended (test : Block.EndTest) (copies : Array Copy) (history : ByteArray) :
    Block.runAll m test literals copies true history =
      (runCopies m literals copies 0 history 0 copies.size).bind fun x => runRest m literals x.1 x.2 := by
  have hsplit (early : Nat) (hle : early ≤ copies.size) : ((runCopies m literals copies 0 history 0 early).bind fun x =>
      (runCopies m literals copies early x.1 x.2 (copies.size - early)).bind fun y => runRest m literals y.1 y.2) =
        (runCopies m literals copies 0 history 0 copies.size).bind fun x => runRest m literals x.1 x.2 := by
    have hadd := runCopies_add m literals copies early (copies.size - early) 0 history 0
    rw [Nat.add_sub_cancel' hle, zero_add] at hadd
    rw [hadd]
    cases runCopies m literals copies 0 history 0 early with
    | error e => rfl
    | ok x => rfl
  cases test with
  | after => exact hsplit copies.size le_rfl
  | ahead => exact hsplit (copies.size - Block.readAhead) (Nat.sub_le _ _)

theorem runRest_eq (hpass : m.Passes low window literals history p j) (hj : j ≤ content.size)
    (hlits : literals = taken ++ slice content p j) : runRest m literals history taken.size = .ok (history ++ slice content p j) := by
  have hslice := size_slice_of_le (i := p) hj
  have hsize : literals.size = taken.size + (j - p) := by rw [hlits, size_append, hslice]
  have hlimit := hpass.limit
  rw [runRest]
  rw [if_neg (by omega), takeOver, copySlice_end, show taken.size + (literals.size - taken.size) = literals.size by omega, hlits,
    slice_append_right]

/-- Sequences that explain a stretch give it back to a reader who has what lies before it. -/
theorem runAll_explains {seqs : Array Seq} (test : Block.EndTest) (hrest : rest ≤ j) (hj : j ≤ content.size)
    (hex : Explains content low window r i seqs.toList (j - rest) r') (htail : EndsWith history content low i)
    (hpass : m.Passes low window (Block.Cut.literals ⟨i, seqs, rest⟩ content) history i j) :
    Block.runAll m test (Block.Cut.literals ⟨i, seqs, rest⟩ content) (resolveAll r seqs.toList).toArray true history =
      .ok (history ++ slice content i j) := by
  have hle := hex.le
  have hlits := literals_eq hrest hex
  have hlits' : Block.Cut.literals ⟨i, seqs, rest⟩ content =
      .empty ++ (literalsOf content i seqs.toList ++ slice content (j - rest) j) := by rw [hlits, empty_append]
  have hrun := runCopies_explains (resolveAll r seqs.toList).toArray hex (Nat.sub_le _ _) hj
    (by rw [size_slice_of_le hj]) (k := 0) htail hpass (by simp) hlits'
  have hsize : (resolveAll r seqs.toList).toArray.size = seqs.toList.length := by simp
  rw [runAll_ended, hsize]
  rw [show ByteArray.empty.size = 0 from rfl, zero_add] at hrun
  rw [hrun]
  change runRest m _ _ _ = _
  rw [runRest_eq (hpass.append (by omega) (Nat.sub_le _ _) (by omega)) hj hlits, append_assoc,
    slice_append_slice (by omega) (Nat.sub_le _ _)]

end ZstCodec.Sequence
