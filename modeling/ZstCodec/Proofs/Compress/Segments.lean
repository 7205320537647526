import ZstCodec.Proofs.Match.Parse
import ZstCodec.Compress.Frame

/-! # Segments as the content grows

Between blocks a finder rests: its tables hold positions of the content so far. It goes on resting when content is
added, when a new segment starts and when older content is forgotten, because trees are only asked about positions that
are not. Before a block everything out of reach is forgotten. -/

namespace ZstCodec.Match

variable {dictEnd low next start : Nat} {attached : Option Attached}

theorem Tagged.mono (h : Tagged n v) (hm : n ≤ m) : Tagged m v := lt_of_lt_of_le h hm

namespace Finder

variable {f : Finder} {n : Nat}

/-! ### What tables hold, after a change of bounds or content -/

theorem within_le_within {f g : Finder} (ht : g.tuning = f.tuning) (hd : g.dictEnd = 0 ∨ g.dictEnd = f.dictEnd)
    (hl : l ≤ l') (pos : Nat) : f.within l pos ≤ g.within l' pos := by
  unfold within
  grind

theorem Kept.raise (h : f.Kept n) (hl : f.low ≤ low)
    (hn : min n f.next ≤ next) (hd : dictEnd = 0 ∨ dictEnd = f.dictEnd) :
    ({ f with low, start, next, dictEnd, attached } : Finder).Kept n where
  plain hs := h.plain hs
  late hs := by
    obtain ⟨n', h0, h1, h2, h3⟩ := h.late hs
    refine ⟨n', h0, h1, le_trans (Nat.le_min.2 ⟨h1, h2⟩) hn, h3.mono ?_ le_rfl ?_⟩
    · have hw : f.lowest n' ≤ ({ f with low, start, next, dictEnd, attached } : Finder).lowest n' :=
        within_le_within (f := f) (g := { f with low, start, next, dictEnd, attached }) rfl hd hl n'
      unfold LateTree.limitAt ring
      dsimp only
      omega
    · have := Nat.two_pow_pos (f.tuning.chainLog - 1)
      unfold LateTree.limitAt ring
      dsimp only
      omega
  optimal hs := by
    obtain ⟨⟨n', h0, h1, h2, h3⟩, h4⟩ := h.optimal hs
    exact ⟨⟨n', h0, le_trans (Nat.le_min.2 ⟨h2, h1⟩) hn, h2, h3⟩, h4⟩

theorem Kept.append (h : f.Kept n) (piece : ByteArray) : ({ f with content := f.content ++ piece } : Finder).Kept n where
  plain hs := h.plain hs
  late hs := by
    obtain ⟨n', h0, h1, h2, V, E, hL, hr⟩ := h.late hs
    exact ⟨n', h0, h1, h2, V, E, hL.append piece, hr⟩
  optimal hs := by
    obtain ⟨⟨n', h0, h1, h2, h3, h4⟩, h5⟩ := h.optimal hs
    exact ⟨⟨n', h0, h1, h2, h3, h4.append piece⟩, h5⟩

theorem Ready.raise (h : f.Ready n) (hl : f.low ≤ low)
    (hs : f.start ≤ start) (hn : min n f.next ≤ next) (hd : dictEnd = 0 ∨ dictEnd = f.dictEnd)
    (ha : attached = none ∨ attached = f.attached) :
    ({ f with low, start, next, dictEnd, attached } : Finder).Ready n where
  kept := h.kept.raise hl hn hd
  ring := h.ring
  beside {d} hd' := by
    have hb : f.Beside d := h.beside (by
      simp_all)
    refine ⟨hb.low, fun ht => ?_, fun ht htree => ?_, fun htree => ?_⟩
    · exact ⟨(hb.tagged ht).1.imp (·.mono hs), (hb.tagged ht).2.imp (·.mono hs)⟩
    · exact ⟨(hb.plain ht htree).1.mono hs, (hb.plain ht htree).2.mono hs⟩
    · have := hb.tree htree
      exact { this with stop_le := le_trans this.stop_le hs }

theorem Ready.append (h : f.Ready n) (piece : ByteArray) : ({ f with content := f.content ++ piece } : Finder).Ready n where
  kept := h.kept.append piece
  ring := h.ring
  beside hd :=
    have hb := h.beside hd
    ⟨hb.low, hb.tagged, hb.plain, fun htree => { hb.tree htree with forested := (hb.tree htree).forested.append piece }⟩

/-! ### Resting -/

/-- A finder between blocks: the content up to `i` is dealt with, the input starts at `origin`. -/
structure Rests (f : Finder) (origin i : Nat) : Prop where
  first_le : firstPosition ≤ f.low
  low_le : f.low ≤ f.start
  start_le : f.start ≤ i
  le_size : i ≤ f.content.size
  origin_le : origin ≤ i
  dictEnd : f.dictEnd = 0 ∨ f.dictEnd = origin
  attached : f.attached.isSome → f.dictEnd ≠ 0 ∧ f.dictEnd ≤ f.start ∧ (f.dictEnd = f.start → f.low = f.start)
  ready : f.Ready i

/-- There is nothing but one segment. -/
structure Alone (f : Finder) : Prop where
  low_eq : f.low = f.start
  attached : f.attached = none

theorem Alone.older (h : f.Alone) : f.older = .nothing := by
  unfold Finder.older
  rw [h.attached, if_neg (not_lt.2 (le_of_eq h.low_eq.symm))]
  rfl

/-- What a block up to `j` may refer to: the window, or a dictionary that has not yet left it. -/
def Limited (f : Finder) (origin j : Nat) : Prop :=
  f.dictEnd = 0 ∨ j ≤ origin + 2 ^ f.tuning.windowLog ∧ j ≤ Compress.Writer.mostPositions

end Finder

end ZstCodec.Match

namespace ZstCodec.Compress.Writer

open Match

variable {f : Finder} {origin i j : Nat}

variable {low start : Nat} {w : Writer}

theorem forgetDictionary_spec (f : Finder) (j : Nat) :
    ∃ dictEnd attached, forgetDictionary f j = { f with dictEnd, attached } ∧
      (dictEnd = 0 ∧ attached = none ∨
        dictEnd = f.dictEnd ∧ attached = f.attached ∧ f.dictEnd = f.start ∧ j ≤ f.dictEnd + 2 ^ f.tuning.windowLog ∧
          j ≤ mostPositions) := by
  unfold forgetDictionary
  split
  · simp
  grind

theorem forgetFar_spec (f : Finder) (i : Nat) :
    ∃ low start dictEnd attached, forgetFar f i = { f with low, start, dictEnd, attached } ∧ f.low ≤ low ∧ f.start ≤ start ∧
      (f.start ≤ i → f.low ≤ f.start → start ≤ i ∧ low ≤ start) ∧
      (dictEnd = 0 ∧ attached = none ∨ dictEnd = f.dictEnd ∧ attached = f.attached ∧ low = f.low ∧ start = f.start) := by
  unfold forgetFar
  dsimp only
  split
  · grind
  grind

theorem limitWindow_spec (h : f.Rests origin i) (hij : i ≤ j) (hj : j ≤ f.content.size) :
    ∃ low start next dictEnd attached, limitWindow f i j = { f with low, start, next, dictEnd, attached } ∧
      (limitWindow f i j).Placed i j ∧ (limitWindow f i j).Rests origin i ∧ (limitWindow f i j).Limited origin j ∧
      (attached = none ∨ attached = f.attached) := by
  have hfirst := h.first_le
  obtain ⟨dictEnd, attached, he, hd⟩ := forgetDictionary_spec f j
  obtain ⟨low, start, dictEnd', attached', he', hl, hs, hi, hd'⟩ := forgetFar_spec { f with dictEnd, attached } i
  have hg : limitWindow f i j =
      { f with low, start, next := max f.next low, dictEnd := dictEnd', attached := attached' } := by
    rw [limitWindow, he, he']
  obtain ⟨hsi, hls⟩ := hi h.start_le h.low_le
  -- whatever is left of the dictionary is what there was
  have hboth : dictEnd' = 0 ∧ attached' = none ∨ dictEnd' = f.dictEnd ∧ attached' = f.attached ∧ f.dictEnd = f.start ∧
      j ≤ f.dictEnd + 2 ^ f.tuning.windowLog ∧ j ≤ mostPositions ∧ low = f.low ∧ start = f.start := by
    dsimp only at hd'
    rcases hd' with hd' | ⟨h1, h2, h3, h4⟩
    · exact .inl hd'
    · simp_all
  have hplaced : (limitWindow f i j).Placed i j := by
    rw [hg]
    refine ⟨le_trans hfirst hl, hls, hsi, hij, hj, fun {d} hd₂ => ?_⟩
    dsimp only at hd₂ ⊢
    rcases hboth with ⟨-, hn⟩ | ⟨h1, h2, h3, -, -, h4, h5⟩
    · rw [hn] at hd₂
      cases hd₂
    · rw [h2] at hd₂
      obtain ⟨hne, -, hseg⟩ := h.attached (by rw [hd₂]; rfl)
      have hb := (h.ready.beside hd₂).low
      omega
  refine ⟨low, start, max f.next low, dictEnd', attached', hg, hplaced, ?_, ?_, hboth.imp And.right fun h => h.2.1⟩
  · rw [hg] at hplaced ⊢
    have hready := h.ready.raise hl hs (show min i f.next ≤ max f.next low by omega) (hboth.imp And.left And.left)
      (hboth.imp And.right fun h => h.2.1)
    refine ⟨hplaced.first_le, hls, hsi, le_trans hij hj, h.origin_le, ?_, fun ha => ?_, hready⟩
    · rcases hboth with ⟨h1, -⟩ | ⟨h1, -⟩
      · exact .inl h1
      · exact h.dictEnd.imp h1.trans h1.trans
    · obtain ⟨d, hd₂⟩ := Option.isSome_iff_exists.1 ha
      obtain ⟨-, -, h3, h4⟩ := hplaced.attached hd₂
      simp_all
  grind [Finder.Limited, Finder.Rests.dictEnd]

theorem limitWindow_alone (h : f.Alone) (i j : Nat) : (limitWindow f i j).Alone := by
  obtain ⟨hlow, hattached⟩ := h
  unfold limitWindow forgetFar
  have hd : (forgetDictionary f j).Alone := by
    unfold forgetDictionary
    split
    · exact ⟨hlow, rfl⟩
    · exact ⟨hlow, hattached⟩
  dsimp only
  split
  · refine ⟨?_, rfl⟩
    have := hd.low_eq
    dsimp only
    omega
  · exact ⟨hd.low_eq, hd.attached⟩

/-! ### New content -/

theorem overwrite_spec (older place n : Int) (h : low ≤ start) :
    low ≤ overwrite older place n low start ∧ overwrite older place n low start ≤ start := by
  unfold overwrite
  split <;> omega

theorem turnOver_spec (start size : Nat) :
    min start size ≤ (turnOver start size).1 ∧ (turnOver start size).1 ≤ size ∧ (turnOver start size).2 = size := by
  have hr : hashReach = 8 := rfl
  grind [turnOver]

theorem turnOver_self (size : Nat) : turnOver size size = (size, size) := by
  simp [turnOver, hashReach]

theorem bounds_spec (fresh : Bool) (older place n : Int) (size : Nat) (hl : low ≤ start) :
    let b := bounds fresh older place n size low start
    min low size ≤ b.1 ∧ b.1 ≤ b.2 ∧
      (start ≤ size → low ≤ b.1 ∧ start ≤ b.2 ∧ b.2 ≤ size ∧ (b.2 = start → low = start → b.1 = b.2)) := by
  obtain ⟨h1, h2, h3⟩ := turnOver_spec start size
  unfold bounds
  cases fresh with
  | true =>
    rw [if_pos rfl]
    dsimp only
    grind [overwrite_spec]
  | false =>
    grind [overwrite_spec]

theorem extend_alone (piece : ByteArray) (h : w.finder.Alone) : (w.extend w.places.next piece).finder.Alone := by
  obtain ⟨plan, f, longDistance, coding, reps, origin, places, stage, firstBlock, consumed, produced⟩ := w
  have hlow : f.low = f.start := h.low_eq
  refine ⟨?_, h.attached⟩
  have ho := overwrite_spec places.older places.next piece.size (le_of_eq hlow)
  unfold extend bounds
  grind

theorem extend_spec (place : Int) (piece : ByteArray) (h : w.finder.Rests w.origin w.finder.content.size)
    (hlong : ∀ {l}, w.longDistance = some l → l.Sorted w.finder.content.size) :
    ∃ low start next longDistance places,
      w.extend place piece =
        { w with finder := { w.finder with content := w.finder.content ++ piece, low, start, next }, longDistance, places } ∧
      (w.extend place piece).finder.Rests w.origin w.finder.content.size ∧
      (∀ {l}, longDistance = some l → ∃ l', w.longDistance = some l' ∧ l.windowLog = l'.windowLog ∧
        l.Sorted w.finder.content.size) := by
  obtain ⟨plan, f, longDistance, coding, reps, origin, places, stage, firstBlock, consumed, produced⟩ := w
  dsimp only at h hlong ⊢
  have hfirst := h.first_le
  have hlow := h.low_le
  have hstart := h.start_le
  unfold extend
  dsimp only
  generalize decide (place ≠ places.next) = fresh
  generalize (if fresh then { places with older := places.base, base := place - f.content.size } else places) = p
  have hb := bounds_spec fresh p.older place piece.size f.content.size hlow
  obtain ⟨-, h1, hb⟩ := hb
  obtain ⟨h2, h3, h4, h5⟩ := hb hstart
  generalize bounds fresh p.older place piece.size f.content.size f.low f.start = b at h1 h2 h3 h4 h5 ⊢
  obtain ⟨low, start⟩ := b
  refine ⟨low, start, _, _, _, rfl, ⟨by dsimp only; omega, h1, h4, ?_, h.origin_le, h.dictEnd, fun ha => ?_, ?_⟩, ?_⟩
  · simp
  · obtain ⟨hd1, hd2, hd3⟩ := h.attached ha
    grind
  · refine (h.ready.append piece).raise h2 h3 ?_ (.inr rfl) (.inr rfl)
    split <;> dsimp only <;> omega
  · intro l hl
    obtain ⟨l', hl', rfl⟩ := Option.map_eq_some_iff.1 hl
    have hs := hlong hl'
    have h1 := hs.first_le
    obtain ⟨h6, h7, -⟩ := bounds_spec fresh p.older place piece.size f.content.size hs.low_le
    exact ⟨l', hl', rfl, by dsimp only; omega, h7, hs.least, hs.below⟩

end ZstCodec.Compress.Writer
