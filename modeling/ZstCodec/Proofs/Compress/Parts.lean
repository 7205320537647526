import ZstCodec.Proofs.Compress.Segments
import ZstCodec.Proofs.Params.Bounds

/-! # The parts of a frame

What a writer gives for a stretch of content is a list of blocks, its *parts*: stored, one byte repeated, or coded from
sequences that explain it to a reader who has the parts before it.

* **What a reader remembers.** A strategy that does not use the third offset does not keep account of it (`Knows`).
* **Retelling.** A reader of one part of a split block may not have seen the offsets of the part before it; `retell`
  tells those in full that it would take for others.
* **Writing.** `writeBlocks` gives parts that join to the whole content. -/

namespace ZstCodec.Match.Explains

variable {b : ByteArray} {low window i j : Nat}

variable {seqs : List Seq}

/-! ### Stretches of sequences -/

theorem split (seqs₁ : List Seq) (h : Explains b low window r i (seqs₁ ++ seqs₂) j r') :
    ∃ k rk, Explains b low window r i seqs₁ k rk ∧ Explains b low window rk k seqs₂ j r' := by
  induction seqs₁ generalizing r i with
  | nil => exact ⟨i, r, .nil _ _, h⟩
  | cons s seqs₁ ih =>
    cases h with
    | cons hf hrest =>
      obtain ⟨k, rk, h1, h2⟩ := ih hrest
      exact ⟨k, rk, .cons hf h1, h2⟩

theorem foldl_span (seqs : List Seq) (n : Nat) :
    seqs.foldl (fun n s => n + s.litLength + s.matchLength) n = n + seqs.foldl (fun n s => n + s.litLength + s.matchLength) 0 := by
  induction seqs generalizing n with
  | nil => rfl
  | cons s seqs ih =>
    grind

theorem span (h : Explains b low window r i seqs j r') :
    i + Block.spanOf seqs.toArray = j := by
  rw [Block.spanOf, List.foldl_toArray]
  induction h with
  | nil => rfl
  | cons _ _ ih =>
    grind [foldl_span]

theorem lt (h : Explains b low window r i seqs j r') (hne : seqs ≠ []) : i < j := by
  cases h with
  | nil => exact absurd rfl hne
  | cons hf hrest =>
    have := hrest.le
    have := hf.least
    omega

end ZstCodec.Match.Explains

namespace ZstCodec.Compress

open Match

/-! ### What a writer knows of its reader -/

/-- A reader remembers `r`, and its writer takes that to be `reps`. -/
structure Knows (exact : Bool) (r reps : Reps) : Prop where
  same : SamePair r reps
  all : exact = true → r = reps

/-- The third offset is not used unless it is known. -/
def Plainly (exact : Bool) (seqs : List Seq) : Prop := exact = false → ∀ s ∈ seqs, Simple s

namespace Knows

variable {exact : Bool} {r reps : Reps}

theorem refl (exact : Bool) (r : Reps) : Knows exact r r := ⟨⟨rfl, rfl⟩, fun _ => rfl⟩

theorem push (h : Knows exact r reps) (o : Nat) : Knows exact (r.push o) (reps.push o) :=
  ⟨⟨rfl, h.same.first⟩, fun he => by rw [h.all he]⟩

/-- Both take a sequence for the same, and know of each other afterwards. -/
theorem resolve (h : Knows exact r reps) (hs : exact = false → v = 1 ∨ 3 < v) :
    (r.resolve l v).1 = (reps.resolve l v).1 ∧ Knows exact (r.after l v) (reps.after l v) := by
  cases exact with
  | true => rw [h.all rfl]; exact ⟨rfl, .refl _ _⟩
  | false =>
    obtain ⟨⟨h1, h2⟩, -⟩ := h
    unfold Reps.after
    rcases hs rfl with rfl | hv
    · by_cases hl : l = 0
      · subst hl
        exact ⟨h2, ⟨h2, h1⟩, nofun⟩
      · simp only [Reps.resolve, hl]
        exact ⟨h1, ⟨h1, h2⟩, nofun⟩
    · simp only [Reps.resolve, if_pos hv]
      exact ⟨trivial, ⟨rfl, h1⟩, nofun⟩

end Knows

/-! ### Retelling -/

variable {b : ByteArray} {low window i j : Nat} {exact : Bool}

/-- Sequences that explain a stretch to one reader are retold for another. -/
theorem retell_spec (h : Explains b low window r i seqs j r') :
    ∀ (rt told meant : Reps) (out : Array Seq), Knows exact r meant → Knows exact rt told → Plainly exact seqs →
      ∃ new told' meant' rt', Block.retell told meant out seqs = (out ++ new.toArray, told', meant') ∧
        Explains b low window rt i new j rt' ∧ Knows exact rt' told' ∧ Knows exact r' meant' ∧ Plainly exact new := by
  induction h with
  | nil r i => exact fun rt told meant out hm ht _ => ⟨[], told, meant, rt, by simp [Block.retell], .nil _ _, ht, hm, by simp [Plainly]⟩
  | @cons r r' i j s seqs hf _ ih =>
    intro rt told meant out hm ht hp
    obtain ⟨ho, hm'⟩ := hm.resolve (l := s.litLength) (v := s.offsetValue) fun he => hp he s (by simp)
    have hp' : Plainly exact seqs := fun he t ht => hp he t (by simp [ht])
    rw [Block.retell]
    dsimp only
    rw [← ho]
    change ∃ new told' meant' rt', Block.retell _ (meant.after s.litLength s.offsetValue) _ seqs = _ ∧ _
    split
    · -- the reader would take the offset for another
      obtain ⟨-, hleast, hwithin, hagree⟩ := hf
      generalize (r.resolve s.litLength s.offsetValue).1 = o at hwithin hagree
      have hrt := resolve_add_three rt s.litLength hwithin.pos
      have htold : Knows exact (rt.after s.litLength (o + 3)) (told.after s.litLength (o + 3)) := by
        rw [Reps.after, Reps.after, hrt, resolve_add_three told s.litLength hwithin.pos]
        exact ht.push o
      obtain ⟨new, told', meant', rt', he, hex, h1, h2, h3⟩ :=
        ih _ _ _ (out.push { s with offsetValue := o + 3 }) hm' htold hp'
      refine ⟨{ s with offsetValue := o + 3 } :: new, told', meant', rt', ?_, .cons ⟨?_, hleast, ?_, ?_⟩ hex, h1, h2, ?_⟩
      · rw [he]
        simp
      · exact Nat.succ_pos _
      · rw [hrt]
        exact hwithin
      · rw [hrt]
        exact hagree
      · intro he t ht
        rcases List.mem_cons.1 ht with rfl | ht
        · exact .inr (by have := hwithin.pos; dsimp only; omega)
        · exact h3 he t ht
    · obtain ⟨ho', ht'⟩ := ht.resolve (l := s.litLength) (v := s.offsetValue) fun he => hp he s (by simp)
      have hrt : (rt.resolve s.litLength s.offsetValue).1 = (r.resolve s.litLength s.offsetValue).1 := by
        by_cases hv : s.offsetValue ≤ 3
        · omega
        · grind [Reps.resolve]
      obtain ⟨new, told', meant', rt', he, hex, h1, h2, h3⟩ := ih _ _ _ (out.push s) hm' ht' hp'
      refine ⟨s :: new, told', meant', rt', ?_, .cons ⟨hf.code_pos, hf.least, ?_, ?_⟩ hex, h1, h2, ?_⟩
      · rw [he]
        simp
      · rw [hrt]
        exact hf.within
      · rw [hrt]
        exact hf.agree
      · intro hexact t ht
        rcases List.mem_cons.1 ht with rfl | ht
        · exact hp hexact t (by simp)
        · exact h3 hexact t ht

/-! ### Parts -/

theorem writeShorter_size
    (h : Block.writeShorter p n literals seqs c = some (body, c')) : body.size < n := by
  obtain ⟨⟨body', c''⟩, -, h⟩ := Option.bind_eq_some_iff.1 h
  grind

/-- The block from `i` to `j`, as `bytes`, for a reader with the codes `c` and the offsets `r` before it. -/
inductive Part (b : ByteArray) (window i j : Nat) (last : Bool) (c : Block.Coding) (r : Reps) :
    ByteArray → Block.Coding → Reps → Prop
  | stored : Part b window i j last c r
      (Block.Header.write .empty { last, kind := .stored, size := j - i } ++ slice b i j) c.later r
  | run : Writer.isRun b i j = true → Part b window i j last c r
      ((Block.Header.write .empty { last, kind := .repeated, size := j - i }).push (byteAt b i)) c.later r
  | coded {p : Block.Policy} {seqs : Array Seq} {rest : Nat} {body : ByteArray} {c' : Block.Coding} {r' : Reps} :
      rest ≤ j → Explains b firstPosition window r i seqs.toList (j - rest) r' →
      Block.writeShorter p (j - i) (Block.Cut.literals ⟨i, seqs, rest⟩ b) seqs c = some (body, c') →
      Part b window i j last c r
        (Block.Header.write .empty { last, kind := .compressed, size := body.size } ++ body) c'.later r'

theorem Part.size_pos
    (h : Part b window i j last c r bytes c' r') : 0 < bytes.size := by
  cases h with
  | stored => rw [size_append, Block.Header.write, size_putLe]; omega
  | run => rw [size_push]; omega
  | coded => rw [size_append, Block.Header.write, size_putLe]; omega

theorem Part.size_le
    (h : Part b window i j last c r bytes c' r') (hij : i < j) (hj : j ≤ b.size) : bytes.size ≤ j - i + 3 := by
  have hempty : ByteArray.empty.size = 0 := rfl
  cases h with
  | stored =>
    grind [Block.Header.write, size_putLe, size_slice_of_le]
  | run =>
    rw [size_push, Block.Header.write, size_putLe]
    omega
  | coded _ _ hw =>
    rw [size_append, Block.Header.write, size_putLe]
    have := writeShorter_size hw
    omega

/-- What is fixed for all parts of a frame: the input starts at `origin` of the content. -/
structure Layout where
  origin : Nat
  windowLog : Nat
  blockSize : Nat

/-- A part that ends at `j` may refer to `window` bytes back, or to the dictionary while it is in view. -/
def Layout.Allows (y : Layout) (j window : Nat) : Prop :=
  window ≤ 2 ^ y.windowLog ∨ j ≤ y.origin + 2 ^ y.windowLog ∧ j ≤ Writer.mostPositions

theorem Layout.Allows.mono {y : Layout} (h : y.Allows j window) (hk : k ≤ j) : y.Allows k window :=
  h.imp_right fun h => ⟨by omega, by omega⟩

/-- Parts that join to the bytes up to `j`, the last of them marked if `last` says so. -/
inductive Parts (y : Layout) (b : ByteArray) (last : Bool) (j : Nat) :
    Nat → Block.Coding → Reps → ByteArray → Block.Coding → Reps → Prop
  | nil (c : Block.Coding) (r : Reps) : Parts y b last j j c r .empty c r
  | cons {i k window : Nat} {c c' c'' : Block.Coding} {r r' r'' : Reps} {bytes rest : ByteArray} :
      i < k → k ≤ j → k ≤ i + y.blockSize → y.Allows k window →
      Part b window i k (last && decide (k = j)) c r bytes c' r' → Parts y b last j k c' r' rest c'' r'' →
      Parts y b last j i c r (bytes ++ rest) c'' r''

namespace Parts

variable {y : Layout} {last : Bool} {k : Nat} {c c' c'' : Block.Coding} {r r' r'' : Reps} {bytes bytes' : ByteArray}

theorem le (h : Parts y b last j i c r bytes c' r') : i ≤ j := by
  induction h with
  | nil => exact le_rfl
  | cons => omega

theorem self (h : Parts y b last j j c r bytes c' r') : bytes = .empty ∧ c = c' ∧ r = r' := by
  cases h with
  | nil => exact ⟨rfl, rfl, rfl⟩
  | cons => omega

theorem size_pos (h : Parts y b last j i c r bytes c' r') (hij : i < j) : 0 < bytes.size := by
  cases h with
  | nil => omega
  | cons _ _ _ _ hp _ =>
    grind [Part.size_pos]

theorem size_le (h : Parts y b last j i c r bytes c' r') (hj : j ≤ b.size) : bytes.size ≤ 4 * (j - i) := by
  induction h with
  | nil => exact Nat.zero_le _
  | cons h1 h2 _ _ hp _ ih =>
    have := hp.size_le h1 (le_trans h2 hj)
    rw [size_append]
    omega

theorem single (hij : i < j) (hb : j ≤ i + y.blockSize) (hw : y.Allows j window)
    (h : Part b window i j last c r bytes c' r') : Parts y b last j i c r bytes c' r' := by
  have : Parts y b last j i c r (bytes ++ .empty) c' r' :=
    .cons hij (le_refl j) hb hw (by simpa using h) (.nil c' r')
  rwa [append_empty] at this

theorem append (h : Parts y b false k i c r bytes c' r') (h' : Parts y b last j k c' r' bytes' c'' r'')
    (hk : k < j ∨ last = false) : Parts y b last j i c r (bytes ++ bytes') c'' r'' := by
  induction h with
  | nil => rwa [empty_append]
  | @cons i m _ _ _ _ _ _ _ _ _ h1 h2 h3 hw hp _ ih =>
    rw [append_assoc]
    refine .cons h1 (le_trans h2 h'.le) h3 hw ?_ (ih h')
    have : (last && decide (m = j)) = (false && decide (m = k)) := by
      rcases hk with hk | hk
      · grind
      · simp [hk]
    rwa [this]

end Parts

/-! ### Where a block is cut -/

theorem cutHalves_spec (estimate : Nat → Nat → Option Nat) (depth : Nat) :
    ∀ (i j : Nat) (cuts : Array Nat), ∃ new : List Nat,
      (Block.cutHalves estimate i j cuts depth).toList = cuts.toList ++ new ∧ new.Pairwise (· < ·) ∧
        ∀ x ∈ new, i < x ∧ x < j := by
  induction depth with
  | zero => simp [Block.cutHalves]
  | succ depth ih =>
    intro i j cuts
    have hnone : ∃ new : List Nat, cuts.toList = cuts.toList ++ new ∧ new.Pairwise (· < ·) ∧ ∀ x ∈ new, i < x ∧ x < j :=
      ⟨[], by simp, .nil, by simp⟩
    have hleast : Block.leastSplit = 300 := rfl
    rw [Block.cutHalves]
    split
    · exact hnone
    rename_i hsplit
    simp only [Bool.or_eq_true, decide_eq_true_eq, not_or] at hsplit
    dsimp only
    split
    · split
      · obtain ⟨first, h1, hp1, hb1⟩ := ih i ((i + j) / 2) cuts
        obtain ⟨second, h2, hp2, hb2⟩ :=
          ih ((i + j) / 2) j ((Block.cutHalves estimate i ((i + j) / 2) cuts depth).push ((i + j) / 2))
        refine ⟨first ++ (i + j) / 2 :: second, by rw [h2]; simp [h1], ?_, fun x hx => ?_⟩
        · refine List.pairwise_append.2 ⟨hp1, List.pairwise_cons.2 ⟨fun x hx => (hb2 x hx).1, hp2⟩, fun x hx z hz => ?_⟩
          grind
        · rcases List.mem_append.1 hx with hx | hx
          · have := hb1 x hx
            omega
          · rcases List.mem_cons.1 hx with rfl | hx
            · omega
            · have := hb2 x hx
              omega
      · exact hnone
    · exact hnone

/-- A block is cut between its sequences, in order. -/
theorem cuts_spec (p : Block.Policy) (c : Block.Coding) (literals : ByteArray) (seqs : Array Seq) :
    (Block.cuts p c literals seqs).toList.Pairwise (· < ·) ∧ ∀ x ∈ (Block.cuts p c literals seqs).toList, 0 < x ∧ x < seqs.size := by
  unfold Block.cuts
  split
  · exact ⟨.nil, by simp⟩
  · obtain ⟨new, h, hp, hb⟩ :=
      cutHalves_spec ((Block.Whole.of literals seqs).estimate p c) (highBit seqs.size + 1) 0 seqs.size #[]
    rw [h]
    exact ⟨hp, hb⟩

/-! ### Writing parts -/

namespace Writer

variable {w : Writer} {last : Bool} {out : ByteArray} {r r' : Reps}

/-- What is fixed for the parts of a writer. -/
def layout (w : Writer) : Layout := ⟨w.origin, w.plan.tuning.windowLog, w.plan.blockSize⟩

theorem header_eq_append (out : ByteArray) (h : Block.Header) :
    Block.Header.write out h = out ++ Block.Header.write .empty h := putLe_eq_append _ _ _

theorem store_eq (w : Writer) (last : Bool) (out : ByteArray) (hij : i ≤ j) :
    w.store i j last out =
      out ++ (Block.Header.write .empty { last, kind := .stored, size := j - i } ++ slice w.finder.content i j) := by
  grind [store, header_eq_append, copySlice_end, append_assoc]

theorem storeRun_eq (w : Writer) (i j : Nat) (last : Bool) (out : ByteArray) :
    w.storeRun i j last out =
      out ++ (Block.Header.write .empty { last, kind := .repeated, size := j - i }).push (byteAt w.finder.content i) := by
  rw [storeRun, header_eq_append, append_push]

/-- What holds of all offsets that a part may use holds of those remembered after it. -/
structure Carries (window i j : Nat) (r r' : Reps) : Prop where
  reach : ∀ {R}, Reaching firstPosition window R → Reps.All (R i) r → Reps.All (R j) r'
  settled : Reps.Settled r → Reps.Settled r'
  told : Reps.Told r → Reps.Told r'

theorem Carries.refl (window : Nat) (hij : i ≤ j) (r : Reps) : Carries window i j r r :=
  ⟨fun hR h => ⟨hR.mono h.1 hij, hR.mono h.2.1 hij, hR.mono h.2.2 hij⟩, id, id⟩

theorem Carries.trans (h : Carries window i j r r') (h' : Carries window j k r' r'') :
    Carries window i k r r'' :=
  ⟨fun hR hr => h'.reach hR (h.reach hR hr), h'.settled ∘ h.settled, h'.told ∘ h.told⟩

theorem writeCut_spec (w : Writer) (seqs : Array Seq) (reps : Reps) (last : Bool) (out : ByteArray) (hij : i ≤ j)
    (hrest : rest ≤ j)
    (he : Explains w.finder.content firstPosition window r i seqs.toList (j - rest) r') (hk : Knows exact r w.reps)
    (hk' : Knows exact r' reps) :
    ∃ bytes c r₁ reps₁, w.writeCut i j last ⟨i, seqs, rest⟩ reps out = ({ w with coding := c, reps := reps₁ }, out ++ bytes) ∧
      Part w.finder.content window i j last w.coding r bytes c r₁ ∧ Knows exact r₁ reps₁ ∧
      Carries window i j r r₁ := by
  unfold writeCut
  dsimp only
  generalize hcoded : Block.writeShorter w.plan.policy (j - i) (Block.Cut.literals ⟨i, seqs, rest⟩ w.finder.content) seqs w.coding =
    coded
  by_cases hrun : w.repeats i j coded = true
  · rw [if_pos hrun]
    have hsame : isRun w.finder.content i j = true := by
      simp only [repeats, Bool.and_eq_true] at hrun
      exact hrun.2
    exact ⟨_, _, r, w.reps, by rw [storeRun_eq], .run hsame, hk, .refl window hij r⟩
  rw [if_neg hrun]
  rcases coded with _ | ⟨body, c⟩
  · exact ⟨_, _, r, w.reps, by rw [store_eq _ _ _ hij], .stored, hk, .refl window hij r⟩
  · refine ⟨_, _, r', reps, by dsimp only; rw [header_eq_append, append_assoc], .coded hrest he hcoded, hk', fun hR hr => ?_, he.settled, he.told⟩
    obtain ⟨h1, h2, h3⟩ := he.remembers hR hr
    exact ⟨hR.mono h1 (Nat.sub_le _ _), hR.mono h2 (Nat.sub_le _ _), hR.mono h3 (Nat.sub_le _ _)⟩

/-- A block that is split becomes several parts. -/
theorem writeParts_spec (cut : Block.Cut) (last : Bool) (hrest : cut.rest ≤ j)
    (hplain : Plainly exact cut.seqs.toList) (ends : List Nat) :
    ∀ (w : Writer) (i k : Nat) (meant r rm : Reps) (out : ByteArray), k < cut.seqs.size → ends.Pairwise (· < ·) →
      (∀ x ∈ ends, k < x ∧ x < cut.seqs.size) →
      Explains w.finder.content firstPosition window rm i (cut.seqs.toList.drop k) (j - cut.rest) meant' →
      Knows exact rm meant → Knows exact r w.reps → j ≤ i + w.plan.blockSize → w.layout.Allows j window →
      ∃ bytes c r₁ reps₁, w.writeParts i j k last cut meant out ends = ({ w with coding := c, reps := reps₁ }, out ++ bytes) ∧
        Parts w.layout w.finder.content last j i w.coding r bytes c r₁ ∧ Knows exact r₁ reps₁ ∧ Carries window i j r r₁ := by
  induction ends with
  | nil =>
    intro w i k meant r rm out hk _ _ he hm hr hb hw
    have hlt : i < j := by
      have := he.lt (by simpa using hk)
      omega
    have hrange : (cut.seqs.extract k cut.seqs.size).toList = cut.seqs.toList.drop k := by
      rw [Array.toList_extract, List.extract_eq_take_drop, List.take_of_length_le (by simp)]
    obtain ⟨new, told', _, rt', heq, hex, hk', -, -⟩ :=
      retell_spec he r w.reps meant #[] hm hr fun h s hs => hplain h s (List.mem_of_mem_drop hs)
    rw [writeParts, hrange, heq]
    obtain ⟨bytes, c, r₁, reps₁, hout, hpart, hk₁, hc⟩ := writeCut_spec w (#[] ++ new.toArray) told' last out
      (le_of_lt hlt) hrest (by simpa using hex) hr hk'
    exact ⟨bytes, c, r₁, reps₁, hout, .single hlt hb hw hpart, hk₁, hc⟩
  | cons stop ends ih =>
    intro w i k meant r rm out hk hp hin he hm hr hb hw
    obtain ⟨hstop, hp⟩ := List.pairwise_cons.1 hp
    obtain ⟨hks, hsize⟩ := hin stop (by simp)
    have hrange : cut.seqs.toList.drop k = (cut.seqs.extract k stop).toList ++ cut.seqs.toList.drop stop := by
      rw [Array.toList_extract, List.extract_eq_take_drop]
      conv_lhs => rw [← List.take_append_drop (stop - k) (cut.seqs.toList.drop k)]
      rw [List.drop_drop, Nat.add_sub_cancel' (le_of_lt hks)]
    rw [hrange] at he
    obtain ⟨m, rk, he₁, he₂⟩ := he.split
    obtain ⟨new, told', meant₁, rt', heq, hex, hk', hm', -⟩ := retell_spec he₁ r w.reps meant #[] hm hr fun h s hs =>
      hplain h s (List.mem_of_mem_drop (hrange ▸ List.mem_append_left _ hs))
    have hspan := hex.span
    have hlt : i < m := he₁.lt (by simp; omega)
    have hmj : m < j := by
      have := he₂.lt (by simp; omega)
      omega
    rw [writeParts, heq]
    dsimp only
    rw [show #[] ++ new.toArray = new.toArray by simp, hspan]
    obtain ⟨bytes, c, r₁, reps₁, hout, hpart, hk₁, hc₁⟩ := writeCut_spec w new.toArray told' false out
      (Nat.le_of_lt hlt) (Nat.zero_le m) hex hr hk'
    rw [hout]
    obtain ⟨bytes', c', r₂, reps₂, hout', hparts, hk₂, hc₂⟩ := ih { w with coding := c, reps := reps₁ } m stop meant₁ r₁ rk (out ++ bytes)
      hsize hp (fun x hx => ⟨hstop x hx, (hin x (by simp [hx])).2⟩) he₂ hm' hk₁ (by dsimp only; omega) hw
    rw [hout', append_assoc]
    refine ⟨bytes ++ bytes', c', r₂, reps₂, rfl, ?_, hk₂, hc₁.trans hc₂⟩
    exact (Parts.single hlt (by show m ≤ i + w.plan.blockSize; omega) (hw.mono (le_of_lt hmj)) hpart).append hparts (.inl hmj)

end Writer

end ZstCodec.Compress
