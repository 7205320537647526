import ZstCodec.Proofs.Bytes
import ZstCodec.Match.Finder

/-! # Sequences that explain content

Sequences *explain* a block if every match names earlier bytes that are equal to its own and within reach.

* **Tables** hold nothing larger than what has been written into them, so a candidate lies before the place searched
  for.
* **Explaining.** `Explains b low window r i seqs j r'`: a reader who remembers `r` and has the bytes up to `i` gets
  those up to `j` from `seqs`, apart from literals, and then remembers `r'`.
* **Offsets set aside.** A quick search carries two offsets, zero for one set aside; `Tracks` relates them to the
  reader's. -/

namespace ZstCodec.Match

variable {d : Attached} {f : Finder} {c l low' lowest m window' : Nat}

/-! ### Tables -/

namespace Table

variable {t : Table} {i k v n : Nat}

theorem get_set_ne (t : Table) (v : Nat) (h : i ≠ k) : (t.set i v).get k = t.get k := by
  simp only [get, set, Array.getD_eq_getD_getElem?, Array.getElem?_modify]
  by_cases hp : i / pageSize = k / pageSize
  · have hm : i % pageSize ≠ k % pageSize := by
      have hi := Nat.div_add_mod i pageSize
      have hk := Nat.div_add_mod k pageSize
      rw [hp] at hi
      omega
    rw [if_pos hp]
    rcases t.pages[k / pageSize]? with _ | page
    · rfl
    · simp only [Option.map_some, Option.getD_some, setPage]
      grind
  · rw [if_neg hp]

/-- A place outside the table stays empty. -/
theorem get_set_self (t : Table) (i v : Nat) : (t.set i v).get i = v ∨ (t.set i v).get i = 0 := by
  simp only [get, set, Array.getD_eq_getD_getElem?, Array.getElem?_modify, if_true]
  rcases t.pages[i / pageSize]? with _ | page
  · exact .inr rfl
  · simp only [Option.map_some, Option.getD_some, setPage]
    grind

@[simp] theorem get_none (k : Nat) : Table.none.get k = 0 := by
  simp [get, none]

@[simp] theorem get_zeros (log k : Nat) : (zeros log).get k = 0 := by
  simp only [get, zeros, Array.getD_eq_getD_getElem?, Array.getElem?_replicate]
  split <;> simp

theorem get_map (f : Nat → Nat) (hf : f 0 = 0) (t : Table) (k : Nat) : (t.map f).get k = f (t.get k) := by
  simp only [get, map, Array.getD_eq_getD_getElem?, Array.getElem?_map]
  rcases t.pages[k / pageSize]? with _ | page
  · simp [hf]
  · simp only [Option.map_some, Option.getD_some, Array.getElem?_map]
    rcases page[k % pageSize]? with _ | x
    · exact hf.symm
    · rfl

/-- All numbers of the table have the property, which an empty place has too. -/
structure All (P : Nat → Prop) (t : Table) : Prop where
  zero : P 0
  get : ∀ k, P (t.get k)

theorem All.imp (h : t.All P) (hpq : ∀ {v}, P v → Q v) : t.All Q := ⟨hpq h.zero, fun k => hpq (h.get k)⟩

theorem All.set (h : t.All P) (i : Nat) (hv : P v) : (t.set i v).All P := by
  refine ⟨h.zero, fun k => ?_⟩
  by_cases hk : i = k
  · grind [get_set_self, zero]
  · rw [get_set_ne t v hk]
    exact h.get k

def Below (t : Table) (n : Nat) : Prop := ∀ k, t.get k < n

namespace Below

theorem mono (h : t.Below n) (hm : n ≤ m) : t.Below m := fun k => by
  have := h k
  omega

theorem set (h : t.Below n) (hv : v < n) : (t.set i v).Below n :=
  (All.set (P := (· < n)) ⟨Nat.zero_lt_of_lt hv, h⟩ i hv).get

theorem zeros (h : 0 < n) (log : Nat) : (Table.zeros log).Below n := fun k => by rwa [get_zeros]

end Below

end Table

/-- The places below `n` are in the table, so that what is written there stays. -/
def Table.Holds (t : Table) (n : Nat) : Prop :=
  ∀ i < n, ∃ page, t.pages[i / pageSize]? = some page ∧ (page.size = 0 ∨ page.size = pageSize)

namespace Table.Holds

variable {t : Table} {n i : Nat}

theorem get_set (h : t.Holds n) (hi : i < n) (v : Nat) : (t.set i v).get i = v := by
  obtain ⟨page, hp, hs⟩ := h i hi
  have hl : i % pageSize < pageSize := Nat.mod_lt _ (by decide)
  simp only [get, set, Array.getD_eq_getD_getElem?, Array.getElem?_modify, if_true, hp, Option.map_some, Option.getD_some,
    setPage]
  grind

theorem set (h : t.Holds n) (i v : Nat) : (t.set i v).Holds n := by
  intro k hk
  obtain ⟨page, hp, hs⟩ := h k hk
  simp only [Table.set, Array.getElem?_modify]
  by_cases hik : i / pageSize = k / pageSize
  · rw [if_pos hik, hp]
    grind [setPage]
  simp_all

theorem zeros (log : Nat) : (Table.zeros log).Holds (2 ^ log) := by
  intro i hi
  have : i / pageSize < 2 ^ log / pageSize + 1 := by
    have := Nat.div_le_div_right (c := pageSize) (le_of_lt hi)
    omega
  exact ⟨#[], by simp [Table.zeros, this], .inl rfl⟩

end Table.Holds

/-! ### Explaining -/

/-- The offset `o` at `p` leads to a position from `low` on, at most `window` bytes back. -/
structure Within (low window p o : Nat) : Prop where
  pos : 0 < o
  low_le : low + o ≤ p
  le_window : o ≤ window

theorem Within.mono (h : Within low window p o) (hq : p ≤ q) : Within low window q o :=
  ⟨h.pos, by have := h.low_le; omega, h.le_window⟩

theorem Within.weaken (h : Within low window p o) (hl : low' ≤ low)
    (hw : window ≤ window') : Within low' window' p o :=
  ⟨h.pos, by have := h.low_le; omega, by have := h.le_window; omega⟩

/-- Bytes at an offset in reach are compared onward. -/
theorem Within.onward (h : Within low window p o) (ha : Agree b p (p - o) 4)
    (stop : Nat) : Agree b p (p - o) (agreement b (p + 4) (p + 4 - o) stop + 4) := by
  have := h.low_le
  have h' := ha.append (agree_agreement b (p + 4) (p - o + 4) stop)
  grind

/-- One sequence at `i` is explained to a reader who remembers `r`. -/
structure Fits (b : ByteArray) (low window : Nat) (r : Reps) (i : Nat) (s : Seq) : Prop where
  code_pos : 0 < s.offsetValue
  least : 3 ≤ s.matchLength
  within : Within low window (i + s.litLength) (r.resolve s.litLength s.offsetValue).1
  agree : Agree b (i + s.litLength) (i + s.litLength - (r.resolve s.litLength s.offsetValue).1) s.matchLength

/-- Sequences explain the bytes from `i` to `j`; their reader remembers `r` before and `r'` after them. -/
inductive Explains (b : ByteArray) (low window : Nat) : Reps → Nat → List Seq → Nat → Reps → Prop
  | nil (r : Reps) (i : Nat) : Explains b low window r i [] i r
  | cons {r r' : Reps} {i j : Nat} {s : Seq} {seqs : List Seq} :
      Fits b low window r i s →
      Explains b low window (r.after s.litLength s.offsetValue) (i + s.litLength + s.matchLength) seqs j r' →
      Explains b low window r i (s :: seqs) j r'

theorem resolve_add_three (r : Reps) (l : Nat) (ho : 0 < o) : r.resolve l (o + 3) = (o, r.push o) := by
  simp [Reps.resolve, ho]

namespace Explains

variable {b : ByteArray} {low window i j k : Nat} {r r' r'' : Reps} {seqs seqs' : List Seq} {s : Seq}

theorem append (h : Explains b low window r i seqs j r') (h' : Explains b low window r' j seqs' k r'') :
    Explains b low window r i (seqs ++ seqs') k r'' := by
  induction h with
  | nil => exact h'
  | cons hf _ ih => exact .cons hf (ih h')

theorem push {seqs : Array Seq} (h : Explains b low window r i seqs.toList j r') (hs : Fits b low window r' j s) :
    Explains b low window r i (seqs.push s).toList (j + s.litLength + s.matchLength)
      (r'.after s.litLength s.offsetValue) := by
  rw [Array.toList_push]
  exact h.append (.cons hs (.nil _ _))

/-- A match is told by a code that the reader takes for its offset. -/
theorem add {seqs : Array Seq} (h : Explains b low window r i seqs.toList j r') (hp : j + l = p)
    (e : r'.resolve l c = (o, r'')) (hc : 0 < c) (hn : 3 ≤ n) (hw : Within low window p o) (ha : Agree b p (p - o) n) :
    Explains b low window r i (seqs.push ⟨l, c, n⟩).toList (p + n) r'' := by
  have := h.push (s := ⟨l, c, n⟩) ⟨hc, hn, by simpa only [e, hp] using hw, by simpa only [e, hp] using ha⟩
  rwa [Reps.after, e, hp] at this

theorem le (h : Explains b low window r i seqs j r') : i ≤ j := by
  induction h with
  | nil => exact le_rfl
  | cons _ _ ih => omega

end Explains

/-! ### Two offsets, perhaps set aside -/

/-- The offset of a sequence comes before the others, is still the first, or changes places with it. -/
theorem after_cases (r : Reps) (l c : Nat) :
    r.after l c = r.push (r.resolve l c).1 ∨ r.after l c = r ∨
      (r.resolve l c).1 = r.second ∧ r.after l c = { r with first := r.second, second := r.first } := by
  unfold Reps.after Reps.resolve
  grind

/-- Offsets are remembered from the front; zero stands for one that nobody has told yet. -/
def Reps.Settled (r : Reps) : Prop := (r.first = 0 → r.second = 0) ∧ (r.second = 0 → r.third = 0)

theorem Reps.Settled.push (h : Reps.Settled r) (ho : 0 < o) : Reps.Settled (r.push o) :=
  ⟨fun h0 => absurd h0 (ne_of_gt ho), h.1⟩

/-- An offset that is told again has been told before. -/
theorem Reps.Settled.after (h : Reps.Settled r) (ho : 0 < (r.resolve l c).1) : Reps.Settled (r.after l c) := by
  rcases after_cases r l c with e | e | ⟨h2, e⟩ <;> rw [e]
  · exact h.push ho
  · exact h
  · rw [h2] at ho
    exact ⟨fun h0 => absurd h0 (ne_of_gt ho), fun h0 => absurd (h.1 h0) (ne_of_gt ho)⟩

def Reps.Told (r : Reps) : Prop := 0 < r.first ∧ 0 < r.second

theorem Reps.Told.after (h : Reps.Told r) (ho : 0 < (r.resolve l c).1) : Reps.Told (r.after l c) := by
  rcases after_cases r l c with e | e | ⟨-, e⟩ <;> rw [e]
  · exact ⟨ho, h.1⟩
  · exact h
  · exact ⟨h.2, h.1⟩

/-- The first and second offset that a reader remembers, for a search with `rep1` and `rep2` that has set aside `saved1`
and `saved2`. -/
structure Tracks (saved1 saved2 rep1 rep2 : Nat) (r : Reps) : Prop where
  first : r.first = if rep1 ≠ 0 then rep1 else saved1
  second : r.second = if rep2 ≠ 0 then rep2 else if saved1 ≠ 0 ∧ rep1 ≠ 0 then saved1 else saved2
  settled : Reps.Settled r

/-- Two readers remember the same first and second offset. -/
structure SamePair (r r' : Reps) : Prop where
  first : r.first = r'.first
  second : r.second = r'.second

namespace Tracks

variable {saved1 saved2 rep1 rep2 : Nat} {r reps : Reps}

theorem start (h : SamePair r reps) (hr : Reps.Settled r) (far1 far2 : Bool) :
    Tracks (setAside reps.first far1).2 (setAside reps.second far2).2 (setAside reps.first far1).1
      (setAside reps.second far2).1 r := by
  refine ⟨?_, ?_, hr⟩
  · grind [setAside, SamePair.first]
  grind [setAside, SamePair.second]

theorem push {o : Nat} (h : Tracks saved1 saved2 rep1 rep2 r) (ho : 0 < o) : Tracks saved1 saved2 o rep1 (r.push o) := by
  refine ⟨?_, ?_, h.settled.push ho⟩
  · rw [if_pos (by omega), Reps.push]
  · have h1 := h.first
    have h2 := h.second
    have hz := h.settled.1
    show r.first = _
    by_cases hrep : rep1 = 0
    · by_cases hsaved : saved1 = 0
      · -- nothing has been told yet, so nothing can have been set aside
        grind
      grind
    · rw [h1, if_pos hrep, if_pos hrep]

theorem swap (h : Tracks saved1 saved2 rep1 rep2 r) (h1 : 0 < rep1) (h2 : 0 < rep2) :
    Tracks saved1 saved2 rep2 rep1 { r with first := r.second, second := r.first } := by
  have hsecond : r.second = rep2 := by rw [h.second, if_pos (by omega)]
  refine ⟨?_, ?_, h.settled.after (l := 0) (c := 1) (by simpa [Reps.resolve, hsecond] using h2)⟩
  · rw [hsecond, if_pos (by omega)]
  · rw [h.first, if_pos (by omega), if_pos (by omega)]

theorem restore (h : Tracks saved1 saved2 rep1 rep2 r) (reps : Reps) :
    SamePair r (restore reps rep1 rep2 saved1 saved2) :=
  ⟨h.first, h.second⟩

theorem first_eq (h : Tracks saved1 saved2 rep1 rep2 r) (h1 : 0 < rep1) : r.first = rep1 := by
  rw [h.first, if_pos (by omega)]

theorem second_eq (h : Tracks saved1 saved2 rep1 rep2 r) (h2 : 0 < rep2) : r.second = rep2 := by
  rw [h.second, if_pos (by omega)]

end Tracks

/-- A sequence has an offset of its own, or repeats the offset that comes first. -/
def Simple (s : Seq) : Prop := s.offsetValue = 1 ∨ 3 < s.offsetValue

section

variable {b : ByteArray} {low window i j : Nat} {r r' : Reps} {seqs : List Seq} (h : Explains b low window r i seqs j r')

include h

theorem Explains.settled (hr : Reps.Settled r) : Reps.Settled r' := by
  induction h with
  | nil => exact hr
  | cons hf _ ih => exact ih (hr.after hf.within.pos)

theorem Explains.told (hr : Reps.Told r) : Reps.Told r' := by
  induction h with
  | nil => exact hr
  | cons hf _ ih => exact ih (hr.after hf.within.pos)

theorem Explains.weaken (hl : low' ≤ low) (hw : window ≤ window') : Explains b low' window' r i seqs j r' := by
  induction h with
  | nil => exact .nil _ _
  | cons hf _ ih => exact .cons { hf with within := hf.within.weaken hl hw } ih

end

/-- What a quick search starts from: its bounds, what a reader remembers, and the offsets set aside. -/
structure Base where
  low : Nat
  window : Nat
  reps : Reps
  start : Nat
  saved1 : Nat
  saved2 : Nat

/-- How far a quick search has got: `seqs` explain what lies before `anchor`. -/
def Cut (b : ByteArray) (k : Base) (seqs : Array Seq) (anchor rep1 rep2 : Nat) : Prop :=
  ∃ r, Explains b k.low k.window k.reps k.start seqs.toList anchor r ∧ Tracks k.saved1 k.saved2 rep1 rep2 r ∧
    ∀ s ∈ seqs, Simple s

namespace Cut

variable {b : ByteArray} {k : Base} {anchor rep1 rep2 p n o : Nat} {seqs : Array Seq}

theorem start (b : ByteArray) (low window i : Nat) (hr : SamePair r reps) (hsettled : Reps.Settled r)
    (far1 far2 : Bool) :
    Cut b ⟨low, window, r, i, (setAside reps.first far1).2, (setAside reps.second far2).2⟩ #[] i
      (setAside reps.first far1).1 (setAside reps.second far2).1 :=
  ⟨r, .nil _ _, .start hr hsettled far1 far2, by simp⟩

theorem simple_push (h : ∀ s ∈ seqs, Simple s) (hs : Simple s) : ∀ t ∈ seqs.push s, Simple t := by
  grind

variable (h : Cut b k seqs anchor rep1 rep2)

include h

theorem take (hp : anchor ≤ p) (hn : 3 ≤ n)
    (hw : Within k.low k.window p o) (ha : Agree b p (p - o) n) :
    Cut b k (seqs.push ⟨p - anchor, o + 3, n⟩) (p + n) o rep1 := by
  obtain ⟨r, he, ht, hsimple⟩ := h
  have ho := hw.pos
  exact ⟨_, he.add (by omega) (resolve_add_three r _ ho) (by omega) hn hw ha, ht.push ho,
    simple_push hsimple (.inr (by dsimp only; omega))⟩

theorem takeFirst (hp : anchor < p) (hn : 3 ≤ n)
    (hw : Within k.low k.window p rep1) (ha : Agree b p (p - rep1) n) :
    Cut b k (seqs.push ⟨p - anchor, 1, n⟩) (p + n) rep1 rep2 := by
  obtain ⟨r, he, ht, hsimple⟩ := h
  have e : r.resolve (p - anchor) 1 = (rep1, r) := by
    simp [Reps.resolve, show p - anchor ≠ 0 by omega, ht.first_eq hw.pos]
  exact ⟨r, he.add (by omega) e one_pos hn hw ha, ht, simple_push hsimple (.inl rfl)⟩

theorem takeSecond (h1 : 0 < rep1) (hn : 3 ≤ n)
    (hw : Within k.low k.window anchor rep2) (ha : Agree b anchor (anchor - rep2) n) :
    Cut b k (seqs.push ⟨0, 1, n⟩) (anchor + n) rep2 rep1 := by
  obtain ⟨r, he, ht, hsimple⟩ := h
  have e : r.resolve 0 1 = (rep2, { r with first := r.second, second := r.first }) := by
    simp [Reps.resolve, ht.second_eq hw.pos]
  exact ⟨_, he.add (add_zero _) e one_pos hn hw ha, ht.swap h1 hw.pos, simple_push hsimple (.inl rfl)⟩

theorem first_pos (h0 : k.saved1 = 0) (hr : Reps.Told k.reps) : 0 < rep1 := by
  obtain ⟨r, he, ht, -⟩ := h
  have hp := (he.told hr).1
  grind [Tracks.first]

theorem second_pos (h1 : k.saved1 = 0) (h2 : k.saved2 = 0) (hr : Reps.Told k.reps) :
    0 < rep2 := by
  obtain ⟨r, he, ht, -⟩ := h
  have hp := (he.told hr).2
  grind [Tracks.second]

end Cut

/-- What is known of an offset carried along; some searches test its reach only when they use it. -/
structure Reaching (low window : Nat) (R : Nat → Nat → Prop) : Prop where
  mono : ∀ {p q o : Nat}, R p o → p ≤ q → R q o
  of_within : ∀ {p o : Nat}, Within low window p o → R p o

theorem reaching_within (low window : Nat) : Reaching low window (Within low window) := ⟨Within.mono, id⟩

theorem reaching_any (low window : Nat) : Reaching low window fun _ _ => True := ⟨fun _ _ => trivial, fun _ => trivial⟩

def Reps.All (P : Nat → Prop) (r : Reps) : Prop := P r.first ∧ P r.second ∧ P r.third

/-- The offset of a sequence is remembered in place of another. -/
theorem Reps.All.after (h : Reps.All P r) (ho : P (r.resolve l c).1) :
    Reps.All P (r.after l c) := by
  obtain ⟨h1, h2, h3⟩ := h
  rcases after_cases r l c with e | e | ⟨-, e⟩ <;> rw [e]
  · exact ⟨ho, h1, h2⟩
  · exact ⟨h1, h2, h3⟩
  · exact ⟨h2, h1, h3⟩

/-- What holds of all offsets in reach goes on to hold of those remembered. -/
theorem Explains.remembers
    (hR : Reaching low window R) (h : Explains b low window r i seqs j r') (hr : Reps.All (R i) r) : Reps.All (R j) r' := by
  induction h with
  | nil => exact hr
  | @cons r r' i j s seqs hf _ ih =>
    have hmove {p : Nat} (hp : i ≤ p) : Reps.All (R p) r := ⟨hR.mono hr.1 hp, hR.mono hr.2.1 hp, hR.mono hr.2.2 hp⟩
    exact ih ((hmove (by omega)).after (hR.mono (hR.of_within hf.within) (by omega)))

/-- A search stands at `pos`, and what lies before `anchor` is explained. -/
structure Cursor (b : ByteArray) (stop : Nat) (k : Base) (R : Nat → Nat → Prop) (seqs : Array Seq)
    (pos anchor rep1 rep2 : Nat) : Prop where
  anchor_le : anchor ≤ pos
  anchor_le_stop : anchor ≤ stop
  cut : Cut b k seqs anchor rep1 rep2
  first : 0 < rep1 → R pos rep1
  second : 0 < rep2 → R pos rep2

namespace Cursor

variable {b : ByteArray} {stop pos anchor rep1 rep2 p n o q : Nat} {k : Base} {R : Nat → Nat → Prop} {seqs : Array Seq}

section

variable (hR : Reaching k.low k.window R) (h : Cursor b stop k R seqs pos anchor rep1 rep2)

include hR h

theorem move (hq : pos ≤ q) : Cursor b stop k R seqs q anchor rep1 rep2 :=
  { h with
    anchor_le := le_trans h.anchor_le hq
    first := fun h1 => hR.mono (h.first h1) hq
    second := fun h2 => hR.mono (h.second h2) hq }

theorem take (hp : anchor ≤ p) (hn : 3 ≤ n) (hq : q = p + n) (hpos : pos ≤ q) (hstop : q ≤ stop) (hw : Within k.low k.window p o)
    (ha : Agree b p (p - o) n) :
    Cursor b stop k R (seqs.push ⟨p - anchor, o + 3, n⟩) q q o rep1 := by
  subst hq
  exact ⟨le_rfl, hstop, h.cut.take hp hn hw ha, fun _ => hR.of_within (hw.mono (by omega)),
    fun h1 => hR.mono (h.first h1) hpos⟩

theorem takeFirst (hp : anchor < p) (hn : 3 ≤ n)
    (hq : q = p + n) (hpos : pos ≤ q) (hstop : q ≤ stop) (hw : Within k.low k.window p rep1) (ha : Agree b p (p - rep1) n) :
    Cursor b stop k R (seqs.push ⟨p - anchor, 1, n⟩) q q rep1 rep2 := by
  subst hq
  exact ⟨le_rfl, hstop, h.cut.takeFirst hp hn hw ha, fun h1 => hR.mono (h.first h1) hpos,
    fun h2 => hR.mono (h.second h2) hpos⟩

end

theorem takeSecond (hR : Reaching k.low k.window R)
    (h : Cursor b stop k R seqs anchor anchor rep1 rep2) (h1 : 0 < rep1) (hn : 3 ≤ n)
    (hq : q = anchor + n) (hstop : q ≤ stop) (hw : Within k.low k.window anchor rep2) (ha : Agree b anchor (anchor - rep2) n) :
    Cursor b stop k R (seqs.push ⟨0, 1, n⟩) q q rep2 rep1 := by
  subst hq
  exact ⟨le_rfl, hstop, h.cut.takeSecond h1 hn hw ha, fun _ => hR.of_within (hw.mono (by omega)),
    fun h1 => hR.mono (h.first h1) (by omega)⟩

end Cursor

/-! ### What a finder reaches -/

namespace Finder

/-- The lowest position that any match may name. -/
def bottom (f : Finder) : Nat :=
  match f.attached with
  | some d => d.low
  | none => f.low

/-- The farthest that any match may reach back; while a dictionary is valid, that is anywhere. -/
def span (f : Finder) : Nat := if f.dictEnd = 0 then 2 ^ f.tuning.windowLog else f.content.size

/-- How many positions the tree of the finder has a place for. -/
abbrev ring (f : Finder) : Nat := 2 ^ (f.tuning.chainLog - 1)

theorem le_within (f : Finder) (lowest pos : Nat) : lowest ≤ f.within lowest pos := by
  unfold within
  grind

theorem sub_within_le (f : Finder) (lowest : Nat) (h : pos ≤ f.content.size) :
    pos - f.within lowest pos ≤ f.span := by
  unfold within span
  grind

theorem within_mono (f : Finder) (lowest : Nat) (h : pos ≤ q) : f.within lowest pos ≤ f.within lowest q := by
  unfold within
  grind

/-- A source that `stop` still sees is in reach of every place up to `stop`. -/
theorem within_of_le (hs : stop ≤ f.content.size) (hp : pos ≤ stop)
    (hm : f.within lowest stop ≤ m) (hlt : m < pos) : Within lowest f.span pos (pos - m) := by
  have h1 := f.le_within lowest stop
  have h2 := f.sub_within_le lowest hs
  exact ⟨by omega, by omega, by omega⟩

/-- An offset that does not reach below the window of `pos` stays in reach. -/
theorem within_of_offset (hp : pos ≤ f.content.size) (ho : 0 < o)
    (h : o ≤ pos - f.within lowest pos) : Within lowest f.span pos o := by
  have h1 := f.le_within lowest pos
  have h2 := f.sub_within_le lowest hp
  exact ⟨ho, by omega, by omega⟩

end Finder

/-- The segments of a finder for a block from `i` to `j`. A dictionary is attached only directly before them. -/
structure Finder.Placed (f : Finder) (i j : Nat) : Prop where
  first_le : firstPosition ≤ f.low
  low_le : f.low ≤ f.start
  start_le : f.start ≤ i
  le : i ≤ j
  le_size : j ≤ f.content.size
  attached : ∀ {d}, f.attached = some d → firstPosition ≤ d.low ∧ d.low ≤ f.start ∧ f.dictEnd ≠ 0 ∧ f.low = f.start

/-- The first places of the content belong to no block. -/
theorem Finder.Placed.pos_of_le (h : f.Placed i j) (hi : i ≤ pos) : 0 < pos := by
  have h1 := h.first_le
  have h2 := h.low_le
  have h3 := h.start_le
  have h4 : firstPosition = 2 := rfl
  omega

theorem Finder.bottom_of_none (h : f.attached = none) : f.bottom = f.low := by rw [bottom, h]

theorem Finder.bottom_of_some (h : f.attached = some d) : f.bottom = d.low := by rw [bottom, h]

/-- What the window of `pos` shows is in reach. -/
theorem Finder.Placed.within_lowest (hp : f.Placed i j) (hj : pos ≤ j)
    (hm : f.lowest pos ≤ m) (hlt : m < pos) : Within f.bottom f.span pos (pos - m) := by
  have h := Finder.within_of_le (le_trans hj hp.le_size) (le_refl pos) hm hlt
  refine h.weaken ?_ le_rfl
  rcases Option.eq_none_or_eq_some f.attached with hn | ⟨d, hd⟩
  · rw [Finder.bottom_of_none hn]
  · rw [Finder.bottom_of_some hd]
    have := hp.attached hd
    omega

theorem Finder.Placed.within_dictionary (hp : f.Placed i j) (hj : pos ≤ j)
    (hd : f.attached = some d) (hm : d.low ≤ m) (hlt : m < pos) : Within f.bottom f.span pos (pos - m) := by
  obtain ⟨h1, h2, h3, h4⟩ := hp.attached hd
  have := hp.le_size
  rw [Finder.bottom_of_some hd, Finder.span, if_neg h3]
  exact ⟨by omega, by omega, by omega⟩

/-- What a reader remembers at `i`, and what a finder takes that to be. Beside a dictionary, repetitions have to be in
reach. -/
structure Finder.Told (f : Finder) (i : Nat) (r reps : Reps) : Prop where
  same : SamePair r reps
  settled : Reps.Settled r
  told : f.older ≠ .nothing → Reps.Told r
  within : f.attached.isSome → Reps.All (Within f.bottom f.span i) r

/-- The sequences of a block up to `j` are explained, and the offsets remembered, but for a third one that is not used. -/
def Parsed.Explained (p : Parsed) (b : ByteArray) (low window : Nat) (r₀ : Reps) (i j : Nat) : Prop :=
  p.rest ≤ j ∧ ∃ r, Explains b low window r₀ i p.seqs.toList (j - p.rest) r ∧ SamePair r p.reps ∧
    ∀ s ∈ p.seqs, Simple s

theorem Cut.explained
    (h : Cut b k seqs anchor rep1 rep2) (hj : anchor ≤ j) (f : Finder) (reps : Reps) :
    Parsed.Explained ⟨f, Match.restore reps rep1 rep2 k.saved1 k.saved2, seqs, j - anchor⟩ b k.low k.window k.reps k.start j := by
  obtain ⟨r, he, ht, hsimple⟩ := h
  refine ⟨Nat.sub_le _ _, r, ?_, ht.restore reps, hsimple⟩
  rwa [Nat.sub_sub_self hj]

theorem restore_zero (reps : Reps) (rep1 rep2 : Nat) :
    Match.restore reps rep1 rep2 0 0 = { reps with first := rep1, second := rep2 } := by
  simp_all [Match.restore]

theorem Cut.explained_plain
    (h : Cut b ⟨low, window, r₀, i, 0, 0⟩ seqs anchor rep1 rep2) (hj : anchor ≤ j) (f : Finder) (reps : Reps) :
    Parsed.Explained ⟨f, { reps with first := rep1, second := rep2 }, seqs, j - anchor⟩ b low window r₀ i j := by
  rw [← restore_zero]
  exact h.explained hj f reps

theorem setAside_pos (h : 0 < (setAside o far).1) : (setAside o far).1 = o ∧ far = false := by
  cases far
  · exact ⟨rfl, rfl⟩
  · simp [setAside] at h

/-- An offset that has not been set aside is in reach. -/
theorem within_of_setAside (hp : pos ≤ f.content.size)
    (h : 0 < (setAside o (pos - f.within lowest pos < o)).1) :
    Within lowest f.span pos (setAside o (pos - f.within lowest pos < o)).1 := by
  grind [setAside_pos, Finder.within_of_offset]

/-- Before a block the offsets that reach below the window of `pos` are set aside. -/
theorem cut_setAside (f : Finder) (j pos : Nat) (hr : SamePair r reps) (hsettled : Reps.Settled r)
    (hi : i ≤ pos) (hj : i ≤ j) (hlow : low ≤ lowest) :
    let aside (o : Nat) := setAside o (pos - f.within lowest pos < o)
    let k : Base := ⟨low, f.span, r, i, (aside reps.first).2, (aside reps.second).2⟩
    Cut f.content k #[] i (aside reps.first).1 (aside reps.second).1 ∧
      (pos ≤ f.content.size →
        Cursor f.content j k (Within low f.span) #[] pos i (aside reps.first).1 (aside reps.second).1) := by
  have hcut := Cut.start f.content low f.span i hr hsettled (pos - f.within lowest pos < reps.first)
    (pos - f.within lowest pos < reps.second)
  exact ⟨hcut, fun hp => ⟨hi, hj, hcut, fun h => (within_of_setAside hp h).weaken hlow le_rfl,
    fun h => (within_of_setAside hp h).weaken hlow le_rfl⟩⟩

end ZstCodec.Match
