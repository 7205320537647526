import ZstCodec.Proofs.Match.Explains
import ZstCodec.Match.Tree

/-! # Search trees stay ordered

A search does not compare the bytes that all positions still to be met have in common with the place at hand. That this
is right rests on the order of the tree.

* **Order.** `Before b m p`: the bytes from `m` on come before those from `p` on. What lies between two places that
  agree with `p` agrees with it (`agree_between`).
* **Reach.** The table is a ring that forgets; a position up to `floor` is met but not followed (`Reach`).
* **Ordered trees.** What can be met on a side of a position lies on that side (`Ordered`). A search that splits the
  tree keeps this: all that it writes into a place was already reachable from there (`Walk`). -/

namespace ZstCodec.Match.Tree

/-! ### Order -/

/-- The bytes from `m` on come before those from `p` on. -/
def Before (b : ByteArray) (m p : Nat) : Prop :=
  ∃ n, Agree b m p n ∧ byteAt b (m + n) < byteAt b (p + n) ∧ m + n < b.size ∧ p + n < b.size

namespace Before

variable {b : ByteArray} {m p q : Nat}

theorem trans (h : Before b m p) (h' : Before b p q) : Before b m q := by
  obtain ⟨n, ha, hlt, hm, hp⟩ := h
  obtain ⟨n', ha', hlt', hp', hq⟩ := h'
  rcases lt_trichotomy n n' with hn | rfl | hn
  · refine ⟨n, fun k hk => (ha k hk).trans (ha' k (by omega)), ?_, hm, by omega⟩
    rw [← ha' n hn]
    exact hlt
  · exact ⟨n, fun k hk => (ha k hk).trans (ha' k hk), UInt8.lt_trans hlt hlt', hm, hq⟩
  · refine ⟨n', fun k hk => (ha k (by omega)).trans (ha' k hk), ?_, by omega, hq⟩
    rw [ha n' hn]
    exact hlt'

/-- The order does not change when content is added. -/
theorem append (h : Before b m p) (c : ByteArray) : Before (b ++ c) m p := by
  obtain ⟨n, ha, hlt, hm, hp⟩ := h
  refine ⟨n, ha.append_right (by omega) (by omega) c, ?_, by rw [size_append]; omega,
    by rw [size_append]; omega⟩
  simp_all [byteAt_append_left]

end Before

/-- What lies between two places that both agree with `p` agrees with `p`. -/
theorem agree_between (hx : Before b x m) (hy : Before b m y) (hpx : Agree b p x n)
    (hpy : Agree b p y n) : Agree b p m n := by
  obtain ⟨k, hk, hltk, -⟩ := hx
  obtain ⟨l, hl, hltl, -⟩ := hy
  -- a first difference below `n` would have to go up from `x` and down to `y`, which are equal there
  by_cases h : n ≤ k
  · exact fun i hi => (hpx i hi).trans (hk i (by omega))
  · exfalso
    have hxy : byteAt b (x + k) = byteAt b (y + k) := (hpx k (by omega)).symm.trans (hpy k (by omega))
    rcases lt_trichotomy k l with hkl | rfl | hkl
    · rw [hl k hkl, hxy] at hltk
      exact UInt8.lt_irrefl _ hltk
    · grind
    · have hxy' : byteAt b (x + l) = byteAt b (y + l) := (hpx l (by omega)).symm.trans (hpy l (by omega))
      rw [← hk l hkl, hxy'] at hltl
      exact UInt8.lt_irrefl _ hltl

/-- `x` lies on the side `d` of `pos`: before it, or behind it if `d` holds. -/
def OnSide (b : ByteArray) (pos : Nat) : Bool → Nat → Prop
  | false, x => Before b x pos
  | true, x => Before b pos x

theorem OnSide.trans (h : OnSide b m d x) (h' : OnSide b pos d m) :
    OnSide b pos d x := by
  cases d
  · exact Before.trans h h'
  · exact Before.trans h' h

theorem OnSide.append (h : OnSide b pos d x) (c : ByteArray) :
    OnSide (b ++ c) pos d x := by
  cases d
  · exact Before.append h c
  · exact Before.append h c

/-! ### Reach -/

/-- The place of the table for the positions on the side `d` of the position `a`. -/
def slot (ring a : Nat) (d : Bool) : Nat := 2 * (a % ring) + d.toNat

/-- From `r` the position `p` can be met; positions up to `floor` are not followed. -/
inductive Reach (t : Table) (ring floor : Nat) : Nat → Nat → Prop
  | here {r : Nat} : r ≠ 0 → Reach t ring floor r r
  | step {r p : Nat} (d : Bool) : floor < r → Reach t ring floor (t.get (slot ring r d)) p → Reach t ring floor r p

namespace Reach

variable {t : Table} {ring floor floor' r m p : Nat}

theorem ne_zero (h : Reach t ring floor r p) : r ≠ 0 := by
  cases h with
  | here h => exact h
  | step d hr _ => omega

theorem trans (h : Reach t ring floor r m) (h' : Reach t ring floor m p) : Reach t ring floor r p := by
  induction h with
  | here _ => exact h'
  | step d hr _ ih => exact .step d hr (ih h')

theorem mono (h : Reach t ring floor' r p) (hf : floor ≤ floor') : Reach t ring floor r p := by
  induction h with
  | here h => exact .here h
  | step d hr _ ih => exact .step d (by omega) ih

end Reach

/-- What may stand below the position `a`: an older one of `E`, or one that is not followed. One is a mark, not a
position. -/
structure Under (floor : Nat) (E : Nat → Prop) (a p : Nat) : Prop where
  lt : p < a
  ne_one : p ≠ 1
  mem : p ≤ floor ∨ E p

theorem Under.zero (h : floor < a) : Under floor E a 0 :=
  ⟨by omega, by omega, .inl (Nat.zero_le _)⟩

/-- The positions of `E` above `floor` are ordered: what can be met on a side of a position lies on that side. A round of
the ring lies between `floor` and `top`. -/
structure Ordered (b : ByteArray) (t : Table) (ring floor top : Nat) (E : Nat → Prop) : Prop where
  lt_top : ∀ {a}, E a → a < top
  ring_le : top ≤ floor + ring
  child : ∀ {a} (d : Bool), E a → floor < a → Under floor E a (t.get (slot ring a d))
  side : ∀ {a d p}, E a → floor < a → Reach t ring floor (t.get (slot ring a d)) p → OnSide b a d p

namespace Ordered

variable {b : ByteArray} {t : Table} {ring floor floor' top top' : Nat} {E : Nat → Prop}

theorem empty (b : ByteArray) (t : Table) (h : top ≤ floor + ring) :
    Ordered b t ring floor top fun _ => False :=
  ⟨nofun, h, nofun, nofun⟩

/-- As time goes on positions are forgotten. -/
theorem mono (h : Ordered b t ring floor top E) (hf : floor ≤ floor') (ht : top ≤ top') (hr : top' ≤ floor' + ring) :
    Ordered b t ring floor' top' E where
  lt_top ha := lt_of_lt_of_le (h.lt_top ha) ht
  ring_le := hr
  child d ha hfa :=
    have hc := h.child d ha (by omega)
    { hc with mem := hc.mem.imp_left fun _ => by omega }
  side ha hfa hp := h.side ha (by omega) (hp.mono hf)

theorem append (h : Ordered b t ring floor top E) (c : ByteArray) : Ordered (b ++ c) t ring floor top E :=
  { h with side := fun ha hfa hp => (h.side ha hfa hp).append c }

/-- Two positions above the floor do not share a place of the ring. -/
theorem slot_inj (hr : top ≤ floor + ring) (ha : floor < a) (ha' : floor < a') (hat : a < top)
    (hat' : a' < top) (h : slot ring a d = slot ring a' d') : a = a' ∧ d = d' := by
  unfold slot at h
  have hd := d.toNat_lt
  have hd' := d'.toNat_lt
  have hm : a % ring = a' % ring := by omega
  have h1 := Nat.sub_mod_eq_zero_of_mod_eq hm
  have h2 := Nat.sub_mod_eq_zero_of_mod_eq hm.symm
  rw [Nat.mod_eq_of_lt (by omega)] at h1 h2
  have hdd : d.toNat = d'.toNat := by omega
  refine ⟨by omega, ?_⟩
  revert hdd
  cases d <;> cases d' <;> simp

theorem under_of_reach (h : Ordered b t ring floor top E) (hp : Reach t ring floor r p)
    (hr : Under floor E a r) : Under floor E a p := by
  induction hp with
  | here _ => exact hr
  | step d hfr _ ih =>
    have hc := h.child d (hr.mem.resolve_left (by omega)) hfr
    exact ih { hc with lt := lt_trans hc.lt hr.lt }

end Ordered

/-- Whatever a place holds could be met from there before. -/
def Shrinks (t₀ t : Table) (ring floor : Nat) (E : Nat → Prop) : Prop :=
  ∀ a d, E a → floor < a → t.get (slot ring a d) = 0 ∨ Reach t₀ ring floor (t₀.get (slot ring a d)) (t.get (slot ring a d))

namespace Shrinks

variable {b : ByteArray} {t₀ t : Table} {ring floor top a p : Nat} {d : Bool} {E : Nat → Prop}

theorem of_eq (h : ∀ {a d}, E a → floor < a → t.get (slot ring a d) = t₀.get (slot ring a d)) :
    Shrinks t₀ t ring floor E := by
  intro a d ha hfa
  rw [h ha hfa]
  exact (Nat.eq_zero_or_pos _).imp_right fun h0 => .here (by omega)

variable (hs : Shrinks t₀ t ring floor E) (ho : Ordered b t₀ ring floor top E)

include hs ho

theorem under (ha : E a) (hfa : floor < a) (d : Bool) :
    Under floor E a (t.get (slot ring a d)) := by
  rcases hs a d ha hfa with h | h
  · rw [h]
    exact .zero hfa
  · exact ho.under_of_reach h (ho.child d ha hfa)

theorem reach (ha : E a) (hfa : floor < a)
    (h : Reach t ring floor (t.get (slot ring a d)) p) : Reach t₀ ring floor (t₀.get (slot ring a d)) p := by
  have key {r q : Nat} (h : Reach t ring floor r q) (hr : r ≤ floor ∨ E r) : Reach t₀ ring floor r q := by
    induction h with
    | here h => exact .here h
    | step e hfr hp ih =>
      have hE := hr.resolve_left (by omega)
      exact .step e hfr (((hs _ e hE hfr).resolve_left hp.ne_zero).trans (ih (hs.under ho hE hfr e).mem))
  exact ((hs a d ha hfa).resolve_left h.ne_zero).trans (key h (hs.under ho ha hfa d).mem)

theorem ordered : Ordered b t ring floor top E :=
  ⟨ho.lt_top, ho.ring_le, fun d ha hfa => hs.under ho ha hfa d, fun ha hfa h => ho.side ha hfa (hs.reach ho ha hfa h)⟩

end Shrinks

/-! ### Walking down a tree -/

/-- A search for `pos` has come to `m`. On each side, `common` counts the bytes that the last position met has in common
with `pos`, and `at_` is its place. -/
structure Seek (b : ByteArray) (t : Table) (ring floor : Nat) (E : Nat → Prop) (pos : Nat) (at_ common : Bool → Nat)
    (m : Nat) : Prop where
  here : m ≤ floor ∨ E m
  bound : ∀ d, (at_ d = slot ring pos d ∧ common d = 0) ∨
    ∃ x, E x ∧ floor < x ∧ at_ d = slot ring x (!d) ∧ Agree b pos x (common d) ∧
      (m ≠ 0 → Reach t ring floor (t.get (slot ring x (!d))) m)

section

variable {b : ByteArray} {t : Table} {ring floor top pos m stop : Nat} {E : Nat → Prop} {at_ common : Bool → Nat}

theorem Seek.start (hm : m ≤ floor ∨ E m) : Seek b t ring floor E pos (slot ring pos) (fun _ => 0) m :=
  ⟨hm, fun _ => .inl ⟨rfl, rfl⟩⟩

section

variable (ho : Ordered b t ring floor top E) (hs : Seek b t ring floor E pos at_ common m)

include ho hs

theorem Seek.agree (hm : m ≠ 0) :
    Agree b pos m (min (common false) (common true)) := by
  rcases hs.bound false with ⟨-, h0⟩ | ⟨x, hx, hfx, -, hax, hrx⟩
  · simp_all [Agree.nil]
  rcases hs.bound true with ⟨-, h1⟩ | ⟨y, hy, hfy, -, hay, hry⟩
  · simp_all [Agree.nil]
  · exact agree_between (ho.side hx hfx (hrx hm)) (ho.side hy hfy (hry hm))
      (hax.mono (min_le_left _ _)) (hay.mono (min_le_right _ _))

/-- Leave `m` on the side `d` and go on, on its inner side. -/
theorem Seek.go
    (hfm : floor < m) (ha : Agree b pos m n) (hn : m' = 0 ∨ Reach t ring floor (t.get (slot ring m (!d))) m') :
    Seek b t ring floor E pos (Function.update at_ d (slot ring m (!d))) (Function.update common d n) m' := by
  have hE := hs.here.resolve_left (by omega)
  refine ⟨?_, fun e => ?_⟩
  · rcases hn with rfl | h
    · exact .inl (Nat.zero_le _)
    · exact (ho.under_of_reach h (ho.child _ hE hfm)).mem
  · by_cases hed : e = d
    · grind
    · rw [Function.update_of_ne hed, Function.update_of_ne hed]
      refine (hs.bound e).imp_right fun ⟨x, hx, hfx, hat, hax, hrx⟩ => ⟨x, hx, hfx, hat, hax, fun h0 => ?_⟩
      exact (hrx (by omega)).trans (.step _ hfm (hn.resolve_left h0))

end

/-- Bytes known to agree need not be compared again. -/
theorem agree_onward (stop : Nat) (ha : Agree b pos m c) (hc : pos + c ≤ stop) :
    let n := c + agreement b (pos + c) (m + c) stop
    Agree b pos m n ∧ pos + n ≤ stop ∧ (pos + n ≠ stop → byteAt b (pos + n) ≠ byteAt b (m + n)) := by
  have hle := agreement_le b (pos + c) (m + c) stop
  refine ⟨ha.append (agree_agreement b _ _ stop), by omega, fun hne => ?_⟩
  grind [agreement_ne]

/-- A search that only reads has come to `m`, and nothing beyond `stop` has been compared. -/
def Seeks (b : ByteArray) (t : Table) (ring floor : Nat) (E : Nat → Prop) (pos stop : Nat) (common : Bool → Nat) (m : Nat) :
    Prop :=
  (∃ at_, Seek b t ring floor E pos at_ common m) ∧ ∀ d, pos + common d ≤ stop

theorem Seeks.here (h : Seeks b t ring floor E pos stop common m) : m ≤ floor ∨ E m := by
  obtain ⟨⟨at_, hs⟩, -⟩ := h
  exact hs.here

variable (ho : Ordered b t ring floor top E) (h : Seeks b t ring floor E pos stop common m)

include ho h

theorem Seeks.agree (hm : m ≠ 0) :
    let c := min (common false) (common true)
    Agree b pos m (c + agreement b (pos + c) (m + c) stop) ∧ pos + (c + agreement b (pos + c) (m + c) stop) ≤ stop := by
  obtain ⟨⟨at_, hs⟩, hc⟩ := h
  have := hc false
  obtain ⟨ha, hle, -⟩ := agree_onward stop (hs.agree ho hm) (by omega)
  exact ⟨ha, hle⟩

theorem Seeks.go (d : Bool)
    (hfm : floor < m) (ha : Agree b pos m n) (hn : pos + n ≤ stop) :
    Seeks b t ring floor E pos stop (Function.update common d n) (t.get (slot ring m (!d))) := by
  obtain ⟨⟨at_, hs⟩, hc⟩ := h
  refine ⟨⟨_, hs.go ho hfm ha ((Nat.eq_zero_or_pos _).imp_right fun h0 => .here (by omega))⟩, fun e => ?_⟩
  grind

end

/-! ### Splitting a tree -/

/-- What stays fixed while the tree of the table `t₀` is split at `pos`. -/
structure Ground.Fixed (b : ByteArray) (t₀ : Table) (ring floor top : Nat) (E : Nat → Prop) (pos : Nat) : Prop where
  ordered : Ordered b t₀ ring floor top E
  fresh : ¬ E pos
  floor_lt : floor < pos
  lt_top : pos < top

/-- The places below which the positions `P d` hang: below `pos`, and below each other on the inner side. -/
def Spine (ring floor pos : Nat) (P : Bool → Nat → Prop) (d : Bool) (k : Nat) : Prop :=
  k = slot ring pos d ∨ ∃ x, P d x ∧ floor < x ∧ k = slot ring x (!d)

/-- A table that has been split part of the way. `P d` holds the positions put on the side `d` so far, and `at_ d` is
where the next one goes. -/
structure Parted (b : ByteArray) (t₀ : Table) (ring floor top : Nat) (E : Nat → Prop) (pos : Nat) (t : Table)
    (at_ : Bool → Nat) (P : Bool → Nat → Prop) : Prop where
  shrink : Shrinks t₀ t ring floor E
  /-- Other places are as before. -/
  frame : ∀ {u d}, floor < u → u < top → ¬ E u → u ≠ pos → t.get (slot ring u d) = t₀.get (slot ring u d)
  put : ∀ {d x}, P d x → OnSide b pos d x ∧ Under floor E pos x
  next : ∀ {d k}, Spine ring floor pos P d k → k ≠ at_ d → t.get k = 0 ∨ P d (t.get k)
  at_mem : ∀ d, at_ d = slot ring pos d ∨ (∃ x, E x ∧ floor < x ∧ at_ d = slot ring x (!d)) ∨ at_ d = 2 * ring

/-- A walk that has come to the position `m` and splits the tree on its way. -/
structure Walk (b : ByteArray) (t₀ : Table) (ring floor top : Nat) (E : Nat → Prop) (pos : Nat) (t : Table)
    (at_ common : Bool → Nat) (P : Bool → Nat → Prop) (m : Nat) : Prop extends
    Parted b t₀ ring floor top E pos t at_ P, Seek b t₀ ring floor E pos at_ common m where
  here_lt : m < pos

theorem get_set_cases (t : Table) (k v i : Nat) :
    (t.set k v).get i = 0 ∨ i = k ∧ (t.set k v).get i = v ∨ i ≠ k ∧ (t.set k v).get i = t.get i := by
  by_cases h : i = k
  · subst h
    exact (Table.get_set_self t i v).symm.imp_right fun h => .inl ⟨rfl, h⟩
  simp_all [Table.get_set_ne, Ne.symm]

section

variable {b : ByteArray} {t₀ t : Table} {ring floor top pos m : Nat} {E : Nat → Prop} {at_ common : Bool → Nat}
  {P : Bool → Nat → Prop}

theorem Walk.start (hm : m ≤ floor ∨ E m) (hlt : m < pos) :
    Walk b t₀ ring floor top E pos t₀ (slot ring pos) (fun _ => 0) (fun _ _ => False) m where
  shrink := .of_eq fun _ _ => rfl
  frame _ _ _ _ := rfl
  put h := h.elim
  next h hne := h.elim (fun h => absurd h hne) fun ⟨_, h, _⟩ => h.elim
  at_mem _ := .inl rfl
  toSeek := .start hm
  here_lt := hlt

variable (hf : Ground.Fixed b t₀ ring floor top E pos)

include hf

/-- The next place belongs to `pos`, or to a position from which `m` is met. -/
theorem Walk.eq_at (hw : Walk b t₀ ring floor top E pos t at_ common P m) (ha : E a) (hfa : floor < a)
    (h : slot ring a e = at_ d) : e = !d ∧ (m ≠ 0 → Reach t₀ ring floor (t₀.get (slot ring a e)) m) := by
  have hr := hf.ordered.ring_le
  have hat := hf.ordered.lt_top ha
  rcases hw.bound d with ⟨hp, -⟩ | ⟨x, hx, hfx, hp, -, hrx⟩
  · have := Ordered.slot_inj hr hfa hf.floor_lt hat hf.lt_top (h.trans hp)
    exact absurd (this.1 ▸ ha) hf.fresh
  · obtain ⟨rfl, rfl⟩ := Ordered.slot_inj hr hfa hfx hat (hf.ordered.lt_top hx) (h.trans hp)
    exact ⟨rfl, hrx⟩

theorem Walk.pos_eq_at (hw : Walk b t₀ ring floor top E pos t at_ common P m) (h : slot ring pos e = at_ d) :
    e = d := by
  have hr := hf.ordered.ring_le
  rcases hw.bound d with ⟨hp, -⟩ | ⟨x, hx, hfx, hp, -⟩
  · exact (Ordered.slot_inj hr hf.floor_lt hf.floor_lt hf.lt_top hf.lt_top (h.trans hp)).2
  · have := Ordered.slot_inj hr hf.floor_lt hfx hf.lt_top (hf.ordered.lt_top hx) (h.trans hp)
    exact absurd (this.1 ▸ hx) hf.fresh

theorem Parted.ne_at (hp : Parted b t₀ ring floor top E pos t at_ P) (d : Bool) (hfu : floor < u)
    (hut : u < top) (hu : ¬ E u) (hup : u ≠ pos) : at_ d ≠ slot ring u e := by
  have hr := hf.ordered.ring_le
  intro h
  rcases hp.at_mem d with hat | ⟨x, hx, hfx, hat⟩ | hat
  · exact hup (Ordered.slot_inj hr hfu hf.floor_lt hut hf.lt_top (h.symm.trans hat)).1
  · have := (Ordered.slot_inj hr hfu hfx hut (hf.ordered.lt_top hx) (h.symm.trans hat)).1
    exact hu (this ▸ hx)
  · have := Nat.mod_lt u (show 0 < ring by omega)
    have := e.toNat_lt
    rw [hat, slot] at h
    omega

theorem Walk.hang (hw : Walk b t₀ ring floor top E pos t at_ common P m) (hm : 2 ≤ m)
    (hside : OnSide b pos d m) (hv : v = if m ≤ floor then 2 * ring else slot ring m (!d)) :
    Parted b t₀ ring floor top E pos (t.set (at_ d) m) (Function.update at_ d v) (fun e x => P e x ∨ (e = d ∧ x = m)) where
  shrink a e ha hfa := by
    rcases get_set_cases t (at_ d) m (slot ring a e) with h0 | ⟨h, h0⟩ | ⟨-, h0⟩
    · exact .inl h0
    · rw [h0]
      exact .inr ((hw.eq_at hf ha hfa h).2 (by omega))
    · rw [h0]
      exact hw.shrink a e ha hfa
  frame {u e} hfu hut hu hup := by
    rw [Table.get_set_ne t m (hw.ne_at hf d hfu hut hu hup)]
    exact hw.frame hfu hut hu hup
  put {e x} h := by
    rcases h with h | ⟨rfl, rfl⟩
    · exact hw.put h
    · exact ⟨hside, hw.here_lt, by omega, hw.here⟩
  next {e k} hk hne := by
    rcases get_set_cases t (at_ d) m k with h0 | ⟨hat, h0⟩ | ⟨hat, h0⟩
    · exact .inl h0
    · have hed : e = d := by
        rcases hk with hk | ⟨x, hx | ⟨rfl, rfl⟩, hfx, hk⟩
        · exact hw.pos_eq_at hf (hk.symm.trans hat)
        · exact Bool.not_inj (hw.eq_at hf ((hw.put hx).2.mem.resolve_left (by omega)) hfx (hk.symm.trans hat)).1
        · rfl
      exact .inr (.inr ⟨hed, h0⟩)
    · rw [h0]
      have hne' : k ≠ at_ e := by
        by_cases hed : e = d
        · rwa [hed]
        · rwa [Function.update_of_ne hed] at hne
      rcases hk with hk | ⟨x, hx | ⟨rfl, rfl⟩, hfx, hk⟩
      · exact (hw.next (.inl hk) hne').imp_right .inl
      · exact (hw.next (.inr ⟨x, hx, hfx, hk⟩) hne').imp_right .inl
      simp_all
  at_mem e := by
    by_cases hed : e = d
    · subst hed
      rw [Function.update_self, hv]
      split
      · exact .inr (.inr rfl)
      · exact .inr (.inl ⟨m, hw.here.resolve_left (by omega), by omega, rfl⟩)
    · rw [Function.update_of_ne hed]
      exact hw.at_mem e

/-- Put `m` on the side `d` and go on, on its inner side. -/
theorem Walk.go (hw : Walk b t₀ ring floor top E pos t at_ common P m) (hm : 2 ≤ m)
    (hside : OnSide b pos d m) (hfm : floor < m) (ha : Agree b pos m n) :
    Walk b t₀ ring floor top E pos (t.set (at_ d) m) (Function.update at_ d (slot ring m (!d))) (Function.update common d n)
      (fun e x => P e x ∨ (e = d ∧ x = m)) ((t.set (at_ d) m).get (slot ring m (!d))) := by
  have hE := hw.here.resolve_left (by omega)
  have hp := hw.hang hf hm hside (if_neg (by omega)).symm
  exact { hp, hw.toSeek.go hf.ordered hfm ha (hp.shrink m (!d) hE hfm) with
    here_lt := lt_trans (hp.shrink.under hf.ordered hE hfm _).lt hw.here_lt }

/-- Leave both places empty: the tree below `pos` is ordered. -/
theorem Parted.close (hp : Parted b t₀ ring floor top E pos t at_ P) :
    Ordered b ((t.set (at_ false) 0).set (at_ true) 0) ring floor top fun a => E a ∨ a = pos := by
  have ho := hf.ordered
  have hget (d : Bool) (k : Nat) : ((t.set (at_ false) 0).set (at_ true) 0).get k = 0 ∨
      k ≠ at_ d ∧ ((t.set (at_ false) 0).set (at_ true) 0).get k = t.get k := by
    rcases get_set_cases (t.set (at_ false) 0) (at_ true) 0 k with h | ⟨-, h⟩ | ⟨h1, h⟩
    · exact .inl h
    · exact .inl h
    rw [h]
    rcases get_set_cases t (at_ false) 0 k with h | ⟨-, h⟩ | ⟨h0, h⟩
    · exact .inl h
    · exact .inl h
    · cases d
      · exact .inr ⟨h0, h⟩
      · exact .inr ⟨h1, h⟩
  generalize ((t.set (at_ false) 0).set (at_ true) 0) = t' at hget
  have hs : Shrinks t₀ t' ring floor E := by
    intro a d ha hfa
    rcases hget d (slot ring a d) with h | ⟨-, h⟩
    · exact .inl h
    · rw [h]
      exact hp.shrink a d ha hfa
  have hnext {d : Bool} {k : Nat} (hk : Spine ring floor pos P d k) : t'.get k = 0 ∨ P d (t'.get k) := by
    rcases hget d k with h | ⟨hne, h⟩
    · exact .inl h
    · rw [h]
      exact hp.next hk hne
  -- what can be met below a position of a side lies on that side
  have hside {d : Bool} {r p : Nat} (hr : P d r) (h : Reach t' ring floor r p) : OnSide b pos d p := by
    induction h with
    | here _ => exact (hp.put hr).1
    | @step r p e hfr hrp ih =>
      obtain ⟨hr', hu⟩ := hp.put hr
      have hE := hu.mem.resolve_left (by omega)
      by_cases hed : e = d
      · subst hed
        exact (ho.side hE hfr (hs.reach ho hE hfr hrp)).trans hr'
      · obtain rfl := Bool.eq_not.2 hed
        exact ih ((hnext (.inr ⟨r, hr, hfr, rfl⟩)).resolve_left hrp.ne_zero)
  refine ⟨?_, ho.ring_le, ?_, ?_⟩
  · rintro a (ha | rfl)
    · exact ho.lt_top ha
    · exact hf.lt_top
  · have widen {a p : Nat} (h : Under floor E a p) : Under floor (fun a => E a ∨ a = pos) a p :=
      { h with mem := h.mem.imp_right .inl }
    rintro a d (ha | rfl) hfa
    · exact widen (hs.under ho ha hfa d)
    · rcases hnext (d := d) (.inl rfl) with h | h
      · rw [h]
        exact .zero hfa
      · exact widen (hp.put h).2
  · rintro a d p (ha | rfl) hfa h
    · exact ho.side ha hfa (hs.reach ho ha hfa h)
    · exact hside ((hnext (.inl rfl)).resolve_left h.ne_zero) h

/-- Places that belong to no position of the tree keep what they hold. -/
theorem Parted.close_frame (hp : Parted b t₀ ring floor top E pos t at_ P) (hfu : floor < u)
    (hut : u < top) (hu : ¬ E u) (hup : u ≠ pos) :
    ((t.set (at_ false) 0).set (at_ true) 0).get (slot ring u d) = t₀.get (slot ring u d) := by
  rw [Table.get_set_ne _ 0 (hp.ne_at hf true hfu hut hu hup), Table.get_set_ne _ 0 (hp.ne_at hf false hfu hut hu hup)]
  exact hp.frame hfu hut hu hup

end

/-! ### The split of a search -/

namespace Split

def at_ (s : Split) (d : Bool) : Nat := if d then s.largerAt else s.smallerAt

def commonOn (s : Split) (d : Bool) : Nat := if d then s.largerCommon else s.smallerCommon

def put (s : Split) (d : Bool) (v n : Nat) : Split :=
  if d then { s with largerAt := v, largerCommon := n } else { s with smallerAt := v, smallerCommon := n }

theorem at_put (s : Split) (d : Bool) (v n : Nat) : (s.put d v n).at_ = Function.update s.at_ d v := by
  funext e
  cases d <;> cases e <;> rfl

theorem commonOn_put (s : Split) (d : Bool) (v n : Nat) : (s.put d v n).commonOn = Function.update s.commonOn d n := by
  funext e
  cases d <;> cases e <;> rfl

theorem hang_eq (s : Split) (g : Ground) (t : Table) (m n : Nat) (d : Bool) (floor : Nat) :
    s.hang g t m n (!d) floor =
      let t := t.set (s.at_ d) m
      if m ≤ floor then (t, s.put d g.nowhere n, none)
      else (t, s.put d (slot g.ring m (!d)) n, some (t.get (slot g.ring m (!d)))) := by
  cases d <;> rfl

end Split

section

variable {b : ByteArray} {t₀ t : Table} {ring floor top pos m : Nat} {E : Nat → Prop}

/-- The table can be closed at the split `s`. -/
def Closable (b : ByteArray) (t₀ : Table) (ring floor top : Nat) (E : Nat → Prop) (pos : Nat) (t : Table) (s : Split) : Prop :=
  ∃ P, Parted b t₀ ring floor top E pos t s.at_ P

/-- `pos` is on top of the tree of `t₀`, and the places of other positions are as before. -/
structure Topped (b : ByteArray) (t₀ : Table) (ring floor top : Nat) (E : Nat → Prop) (pos : Nat) (t : Table) : Prop where
  ordered : Ordered b t ring floor top fun a => E a ∨ a = pos
  frame : ∀ {u d}, floor < u → u < top → ¬ E u → u ≠ pos → t.get (slot ring u d) = t₀.get (slot ring u d)

/-- A search has come to `m` with the split `s`; nothing beyond `stop` has been compared. -/
def Walks (b : ByteArray) (t₀ : Table) (ring floor top : Nat) (E : Nat → Prop) (pos stop : Nat) (t : Table) (s : Split)
    (m : Nat) : Prop :=
  (∃ P, Walk b t₀ ring floor top E pos t s.at_ s.commonOn P m) ∧ ∀ d, pos + s.commonOn d < stop

variable {stop : Nat} {s : Split}

theorem Walks.start (hm : m ≤ floor ∨ E m) (hlt : m < pos) (hs : pos < stop) :
    Walks b t₀ ring floor top E pos stop t₀ ⟨2 * (pos % ring), 2 * (pos % ring) + 1, 0, 0⟩ m := by
  have h0 : Split.commonOn ⟨2 * (pos % ring), 2 * (pos % ring) + 1, 0, 0⟩ = fun _ => 0 := by
    funext d
    cases d <;> rfl
  have hat : Split.at_ ⟨2 * (pos % ring), 2 * (pos % ring) + 1, 0, 0⟩ = slot ring pos := by
    funext d
    cases d <;> rfl
  unfold Walks
  rw [h0, hat]
  exact ⟨⟨_, .start hm hlt⟩, fun _ => hs⟩

theorem Walks.closable (h : Walks b t₀ ring floor top E pos stop t s m) : Closable b t₀ ring floor top E pos t s := by
  obtain ⟨⟨P, hw⟩, -⟩ := h
  exact ⟨P, hw.toParted⟩

theorem Walks.here_lt (h : Walks b t₀ ring floor top E pos stop t s m) : m < pos := by
  obtain ⟨⟨P, hw⟩, -⟩ := h
  exact hw.here_lt

variable (hf : Ground.Fixed b t₀ ring floor top E pos)

include hf

/-- The bytes in common are found by comparing only what is not known to agree. -/
theorem Walks.agree (h : Walks b t₀ ring floor top E pos stop t s m) (hm : m ≠ 0) :
    let n := s.common + agreement b (pos + s.common) (m + s.common) stop
    Agree b pos m n ∧ pos + n ≤ stop ∧ (pos + n ≠ stop → byteAt b (pos + n) ≠ byteAt b (m + n)) := by
  obtain ⟨⟨P, hw⟩, hc⟩ := h
  refine agree_onward stop (hw.toSeek.agree hf.ordered hm) ?_
  have := hc false
  have : s.common ≤ s.commonOn false := min_le_left _ _
  omega

theorem Closable.topped (h : Closable b t₀ ring floor top E pos t s) : Topped b t₀ ring floor top E pos (s.close t) := by
  obtain ⟨P, hp⟩ := h
  exact ⟨hp.close hf, fun hfu hut hu hup => hp.close_frame hf hfu hut hu hup⟩

omit hf in
/-- Hanging a position on its side goes on with the walk, or ends it. -/
theorem Walks.hang (hf : Ground.Fixed b t₀ g.ring floor top E pos)
    (h : Walks b t₀ g.ring floor top E pos stop t s m) (hm : 2 ≤ m) (ha : Agree b pos m n) (hn : pos + n < stop)
    (hstop : stop ≤ b.size) (hne : byteAt b (pos + n) ≠ byteAt b (m + n)) :
    let r := s.hang g t m n (byteAt b (m + n) < byteAt b (pos + n)) floor
    match r.2.2 with
    | none => Closable b t₀ g.ring floor top E pos r.1 r.2.1
    | some m' => Walks b t₀ g.ring floor top E pos stop r.1 r.2.1 m' := by
  obtain ⟨⟨P, hw⟩, hc⟩ := h
  have hlt := hw.here_lt
  obtain ⟨d, hd, hside⟩ : ∃ d, decide (byteAt b (m + n) < byteAt b (pos + n)) = !d ∧ OnSide b pos d m := by
    rcases UInt8.lt_or_lt_of_ne hne with h | h
    · exact ⟨true, decide_eq_false fun h' => UInt8.lt_irrefl _ (UInt8.lt_trans h h'), n, ha, h, by omega, by omega⟩
    · exact ⟨false, decide_eq_true h, n, ha.symm, h, by omega, by omega⟩
  rw [hd, Split.hang_eq]
  by_cases hfm : m ≤ floor
  · rw [if_pos hfm]
    unfold Closable
    dsimp only
    rw [Split.at_put]
    exact ⟨_, hw.hang hf hm hside (if_pos hfm).symm⟩
  · rw [if_neg hfm]
    unfold Walks
    dsimp only
    rw [Split.at_put, Split.commonOn_put]
    refine ⟨⟨_, hw.go hf hm hside (by omega) ha⟩, fun e => ?_⟩
    grind

end

theorem Holds.close (h : t.Holds n) (s : Split) : (s.close t).Holds n := (h.set _ _).set _ _

theorem Holds.hang (h : t.Holds n) (s : Split) (g : Ground) (m k : Nat) (smaller : Bool) (floor : Nat) :
    (s.hang g t m k smaller floor).1.Holds n := by
  unfold Split.hang
  split <;> split <;> exact h.set _ _

/-! ### Walking -/

section

variable {α : Type} {v : α → Nat → Nat → α × Bool} {g : Ground} {t₀ : Table} {floor lim top pos least stop : Nat} {E : Nat → Prop}
  {I Q : α → Prop}

theorem walk_holds (left : Nat) : ∀ (s : Split) (m : Nat) (t : Table) (a : α), t.Holds n →
    (walk v g pos least floor stop s m t a left).tree.Holds n := by
  induction left with
  | zero => exact fun s m t a h => Holds.close h s
  | succ left ih => grind [walk, Holds.close, Holds.hang]

/-- A walk puts `pos` on top of the tree. What holds of all that is gathered while the walk goes on is `I`. -/
theorem walk_spec (hf : Ground.Fixed g.b t₀ g.ring lim top E pos) (hstop : stop ≤ g.b.size) (hleast : 2 ≤ least)
    (hfl : ∀ {m}, least ≤ m → (m ≤ floor ↔ m ≤ lim)) (hI : ∀ {a}, I a → Q a)
    (hvisit : ∀ {a m n}, I a → least ≤ m → m < pos → Agree g.b pos m n → pos + n ≤ stop →
      Q (v a m n).1 ∧ ((v a m n).2 = false → pos + n ≠ stop ∧ I (v a m n).1)) (left : Nat) :
    ∀ (s : Split) (m : Nat) (t : Table) (a : α), Walks g.b t₀ g.ring lim top E pos stop t s m → I a →
      Topped g.b t₀ g.ring lim top E pos (walk v g pos least floor stop s m t a left).tree ∧
        Q (walk v g pos least floor stop s m t a left).got := by
  induction left with
  | zero => exact fun s m t a hw ha => ⟨hw.closable.topped hf, hI ha⟩
  | succ left ih =>
    intro s m t a hw ha
    rw [walk]
    split
    · exact ⟨hw.closable.topped hf, hI ha⟩
    obtain ⟨hagree, hle, hne⟩ := hw.agree hf (by omega)
    dsimp only at hagree hle hne ⊢
    generalize s.common + agreement g.b (pos + s.common) (m + s.common) stop = n at hagree hle hne ⊢
    obtain ⟨hQ, hgo⟩ := hvisit ha (by omega) hw.here_lt hagree hle
    generalize v a m n = x at hQ hgo ⊢
    obtain ⟨a', done⟩ := x
    cases done with
    | true => exact ⟨hw.closable.topped hf, hQ⟩
    | false =>
      obtain ⟨hend, ha'⟩ := hgo rfl
      have hh := hw.hang (g := g) hf (by omega) hagree (by omega) hstop (hne hend)
      have heq : s.hang g t m n (byteAt g.b (m + n) < byteAt g.b (pos + n)) lim =
          s.hang g t m n (byteAt g.b (m + n) < byteAt g.b (pos + n)) floor := by
        simp only [Split.hang, hfl (show least ≤ m by omega)]
      rw [heq] at hh
      dsimp only
      rw [if_neg Bool.false_ne_true]
      generalize s.hang g t m n _ floor = r at hh ⊢
      obtain ⟨t', s', next⟩ := r
      rcases next with _ | m'
      · exact ⟨Closable.topped hf hh, hQ⟩
      · exact ih s' m' t' a' hh ha'

theorem look_spec (ho : Ordered g.b d.tables.chain ring floor top E)
    (hold : ∀ {m}, d.low < m → (m ≤ floor ∨ E m) → m < pos)
    (hvisit : ∀ {a m n}, I a → d.low < m → m < pos → Agree g.b pos m n → pos + n ≤ g.stop → I (v a m n).1) (left : Nat) :
    ∀ (common : Bool → Nat) (m : Nat) (a : α), Seeks g.b d.tables.chain ring floor E pos g.stop common m → I a →
      I (look v g d ring floor pos (common false) (common true) m a left) := by
  induction left with
  | zero => exact fun common m a _ ha => ha
  | succ left ih =>
    intro common m a hs ha
    rw [look]
    split
    · exact ha
    obtain ⟨hagree, hle⟩ := hs.agree ho (by omega)
    dsimp only at hagree hle ⊢
    generalize min (common false) (common true) + agreement g.b _ _ g.stop = n at hagree hle ⊢
    have ha' := hvisit ha (by omega) (hold (by omega) hs.here) hagree hle
    split
    · exact ha'
    rename_i hend
    simp only [Bool.or_eq_true, decide_eq_true_eq, not_or, not_le] at hend
    have hgo (d : Bool) := hs.go ho d hend.2 hagree hle
    split
    · exact ih _ _ _ (hgo false) ha'
    · exact ih _ _ _ (hgo true) ha'

end

theorem le_farther (longest n reach stop : Nat) : reach ≤ farther longest n reach stop := by
  unfold farther
  grind

/-! ### Entering positions -/

/-- The positions entered so far, below `n`, are in ordered trees with roots in `hash`. -/
def Forested (b : ByteArray) (hash tree : Table) (ring n : Nat) : Prop :=
  ∃ E, Ordered b tree ring (n - ring) n E ∧ hash.All fun a => a ≤ n - ring ∨ E a

namespace Forested

variable {b : ByteArray} {hash tree : Table} {ring n pos : Nat}

theorem mono (h : Forested b hash tree ring n) (hm : n ≤ m) : Forested b hash tree ring m := by
  obtain ⟨E, ho, hr⟩ := h
  exact ⟨E, ho.mono (by omega) hm (by omega), hr.imp fun h => h.imp_left fun h => by omega⟩

theorem append (h : Forested b hash tree ring n) (c : ByteArray) : Forested (b ++ c) hash tree ring n := by
  obtain ⟨E, ho, hr⟩ := h
  exact ⟨E, ho.append c, hr⟩

theorem of_zero (b : ByteArray) (tree : Table) (h : ∀ k, hash.get k = 0) (ring n : Nat) :
    Forested b hash tree ring n :=
  ⟨_, .empty b tree (by omega), .inl (Nat.zero_le _), fun k => .inl (by rw [h k]; omega)⟩

theorem fixed (h : Forested b hash tree ring n) (hring : 2 ≤ ring) (hn : n ≤ pos) (hpos : 0 < pos) :
    ∃ E, Ground.Fixed b tree ring (pos - (ring - 1)) (pos + 1) E pos ∧
      hash.All fun a => (a ≤ pos - (ring - 1) ∨ E a) ∧ a < pos := by
  obtain ⟨E, ho, hr⟩ := h
  have hlt {a : Nat} (ha : E a) : a < pos := lt_of_lt_of_le (ho.lt_top ha) hn
  refine ⟨E, ⟨ho.mono (by omega) (by omega) (by omega), fun he => lt_irrefl _ (hlt he), by omega, by omega⟩,
    hr.imp fun h => ?_⟩
  grind

theorem set {E : Nat → Prop} (hring : 2 ≤ ring)
    (ho : Ordered b tree' ring (pos - (ring - 1)) (pos + 1) fun a => E a ∨ a = pos)
    (hr : hash.All fun a => (a ≤ pos - (ring - 1) ∨ E a) ∧ a < pos) : Forested b (hash.set k pos) tree' ring (pos + 1) :=
  ⟨_, ho.mono (by omega) le_rfl (by omega),
    (hr.imp fun h => h.1.imp (fun h => by omega) .inl).set k (.inr (.inr rfl))⟩

end Forested

theorem update_forested (hring : 2 ≤ g.ring) (hwl : 2 ≤ windowLow)
    (hstop : g.stop ≤ g.b.size) (htarget : target ≤ g.stop) (fuel : Nat) :
    ∀ (i n : Nat) (hash tree : Table), 0 < i → n ≤ i → Forested g.b hash tree g.ring n →
      ∃ n', n' ≤ max n target ∧
        Forested g.b (update g h tries windowLow target i hash tree fuel).1
          (update g h tries windowLow target i hash tree fuel).2 g.ring n' := by
  induction fuel with
  | zero =>
    intro i n hash tree _ _ hF
    exact ⟨n, by omega, hF⟩
  | succ fuel ih =>
    intro i n hash tree hi hn hF
    rw [update]
    split
    · obtain ⟨E, hf, hr⟩ := hF.fixed hring hn hi
      dsimp only
      generalize h.hashAt g.b i = k
      obtain ⟨ht, hreach⟩ := walk_spec (v := meet g.stop i) (I := fun a => i + 9 ≤ a.2) hf hstop hwl (fun _ => Iff.rfl) id
        (fun ha _ _ _ _ => ⟨ha.trans (le_farther _ _ _ _), fun hend => ⟨of_decide_eq_false hend, ha.trans (le_farther _ _ _ _)⟩⟩) tries _ (hash.get k)
        tree (8, i + 9) (.start (hr.get k).1 (hr.get k).2 (by omega)) le_rfl
      unfold enter
      generalize walk _ g i windowLow (i - (g.ring - 1)) _ _ (hash.get k) tree (8, i + 9) tries = r at ht hreach ⊢
      obtain ⟨tree', ⟨longest, reach⟩, left, done⟩ := r
      have hstride : i + 1 ≤ i + stride i longest reach := by
        unfold stride
        dsimp only at hreach
        omega
      obtain ⟨n', hn', hF'⟩ := ih _ _ _ _ (by omega) hstride (Forested.set hring ht.ordered hr)
      exact ⟨n', by omega, hF'⟩
    · exact ⟨n, by omega, hF⟩

/-! ### Matches of a place -/

/-- A match at `pos` for a reader who remembers `reps`, directly `behind` a match or not. -/
structure Fitting (b : ByteArray) (low window stop : Nat) (reps : Reps) (behind : Bool) (pos : Nat) (m : Best) : Prop where
  least : 3 ≤ m.length
  code_pos : 0 < m.code
  le_stop : pos + m.length ≤ stop
  within : Within low window pos (reps.resolve (if behind then 0 else 1) m.code).1
  agree : Agree b pos (pos - (reps.resolve (if behind then 0 else 1) m.code).1) m.length

theorem Fitting.fresh (reps : Reps) (behind : Bool) (hn : 3 ≤ n)
    (hstop : pos + n ≤ stop) (hm : m < pos) (hw : Within low window pos (pos - m)) (ha : Agree b pos m n) :
    Fitting b low window stop reps behind pos ⟨n, pos - m + 3⟩ := by
  have e (l : Nat) := resolve_add_three reps l hw.pos
  refine ⟨hn, Nat.succ_pos _, hstop, ?_, ?_⟩
  · rw [e]
    exact hw
  grind

/-- Matches of `F`, each longer than the one before it; `longest` is the length of the last. -/
structure Gathered (F : Best → Prop) (found : Array Best) (longest : Nat) : Prop where
  fits : ∀ m ∈ found, F m
  le : ∀ m ∈ found, m.length ≤ longest
  back : ∀ {m}, found.back? = some m → m.length = longest

namespace Gathered

variable {F : Best → Prop} {found : Array Best} {longest : Nat}

theorem empty (F : Best → Prop) (longest : Nat) : Gathered F #[] longest := ⟨by simp, by simp, by simp⟩

theorem push (h : Gathered F found longest) (hn : longest < m.length) (hm : F m) :
    Gathered F (found.push m) m.length := by
  refine ⟨Array.forall_mem_push.2 ⟨hm, h.fits⟩, Array.forall_mem_push.2 ⟨le_rfl, fun x hx => ?_⟩, fun hb => ?_⟩
  · have := h.le x hx
    omega
  simp_all

theorem collect (h : Gathered F found longest) (hn : longest < n → F ⟨n, code⟩) :
    Gathered F (if longest < n then found.push ⟨n, code⟩ else found) (max longest n) := by
  split
  · rename_i hlt
    rw [Nat.max_eq_right (le_of_lt hlt)]
    exact h.push hlt (hn hlt)
  simp_all

end Gathered

/-- What has been caught of the matches `F`; the farthest reaches up to `r` at least. -/
structure Catch.Good (F : Best → Prop) (r : Nat) (c : Catch) : Prop where
  two_le : 2 ≤ c.longest
  gathered : Gathered F c.found c.longest
  reach : r ≤ c.reach

/-- Only matches are caught. One that reaches the end of the block ends the search. -/
theorem Catch.Good.meet {c : Catch}
    (h : c.Good (Fitting b low window stop reps behind pos) r) (hm : m < pos) (hw : Within low window pos (pos - m)) (ha : Agree b pos m n)
    (hn : pos + n ≤ stop) :
    (c.meet stop pos m n).1.Good (Fitting b low window stop reps behind pos) r ∧
      (pos + c.longest < stop → (c.meet stop pos m n).2 = false → pos + n ≠ stop ∧ pos + (c.meet stop pos m n).1.longest < stop) := by
  obtain ⟨hl, hfound, hr⟩ := h
  refine ⟨⟨hl.trans (le_max_left _ _), hfound.collect fun hlt => .fresh reps behind (by omega) hn hm hw ha, hr.trans (le_farther _ _ _ _)⟩, fun hls hend => ?_⟩
  simp only [Catch.meet, Bool.and_eq_false_iff, Bool.or_eq_false_iff, decide_eq_false_iff_not, beq_eq_false_iff_ne] at hend ⊢
  omega

/-! ### All matches -/

/-- A dictionary's trees lie in the dictionary, which ends before the segment. -/
structure Attached.Forested (b : ByteArray) (start : Nat) (d : Attached) : Prop where
  low_le : d.low ≤ d.stop
  stop_le : d.stop ≤ start
  two_le : 2 ≤ 2 ^ (d.tuning.chainLog - 1)
  forested : Tree.Forested b d.tables.hash d.tables.chain (2 ^ (d.tuning.chainLog - 1)) d.stop

/-- A search may start from any root of a dictionary's trees, whose floor is the lower one. -/
theorem Attached.Forested.search (h : Attached.Forested b start d)
    (hpos : start ≤ pos) (hs : pos ≤ stop) :
    let ring := 2 ^ (d.tuning.chainLog - 1)
    let floor := if d.stop - d.low ≤ ring - 1 then d.low else d.stop - (ring - 1)
    ∃ E, Ordered b d.tables.chain ring floor d.stop E ∧ (∀ {m}, d.low < m → (m ≤ floor ∨ E m) → m < pos) ∧
      ∀ k, Seeks b d.tables.chain ring floor E pos stop (fun _ => 0) (d.tables.hash.get k) := by
  intro ring floor
  obtain ⟨hlow, hstop, htwo, E, ho, hr⟩ := h
  have hfloor : d.stop - (ring - 1) ≤ floor ∧ ∀ {m}, d.low < m → m ≤ floor → m < pos := by
    unfold floor
    split
    · grind
    · grind
  refine ⟨E, ho.mono (by omega) le_rfl (by omega), fun hm h => ?_,
    fun k => ⟨⟨_, .start ((hr.get k).imp_left fun h => by omega)⟩, fun _ => hs⟩⟩
  rcases h with h | h
  · exact hfloor.2 hm h
  · have := ho.lt_top h
    omega

/-- Tables that hold positions below the first that is not yet entered. -/
def Forest.Good (b : ByteArray) (ring stop : Nat) (f : Forest) : Prop :=
  ∃ n, 0 < n ∧ n ≤ f.next ∧ n ≤ stop ∧ f.hash3.Below n ∧ Forested b f.hash f.tree ring n

/-- The codes from one on name the offsets of the list. -/
def Listed (reps : Reps) (behind : Bool) (code : Nat) (offsets : List Nat) : Prop :=
  ∀ k (hk : k < offsets.length), (reps.resolve (if behind then 0 else 1) (code + k)).1 = offsets[k]

theorem listed (reps : Reps) (behind : Bool) :
    Listed reps behind 1 (if behind then [reps.second, reps.third, reps.first - 1] else [reps.first, reps.second, reps.third]) := by
  cases behind
  all_goals
    intro k (hk : k < 3)
    obtain rfl | rfl | rfl : k = 0 ∨ k = 1 ∨ k = 2 := by omega
    all_goals simp [Reps.resolve]

/-- A match that a finder may give for the place `pos`. -/
abbrev Fits (f : Finder) (j : Nat) (reps : Reps) (behind : Bool) (pos : Nat) : Best → Prop :=
  Fitting f.content f.bottom f.span j reps behind pos

section

variable {f : Finder} {i j pos : Nat} {reps : Reps} {behind : Bool}

/-- What an offset leads to is looked at only if it is in reach. -/
theorem Hunt.within_of_reaches (hp : f.Placed i j) (hj : pos ≤ j)
    (h : (hunt f j).reaches (f.lowest pos) pos offset = true) : Within f.bottom f.span pos offset := by
  unfold Hunt.reaches at h
  dsimp only at h
  split at h
  · cases h
  rename_i h0
  simp only [Bool.or_eq_true, decide_eq_true_eq, not_or, not_lt] at h0
  have e : pos - (pos - offset) = offset := by omega
  split at h
  · have hw := hp.within_lowest hj (of_decide_eq_true h) (by omega)
    rwa [e] at hw
  split at h
  · cases h
  · simp only [Bool.and_eq_true, decide_eq_true_eq] at h
    have hw := hp.within_lowest hj h.1 (by omega)
    rwa [e] at hw
  · rename_i ho
    obtain ⟨h, -⟩ := Bool.and_eq_true_iff.1 h
    change f.older = .dictionary at ho
    simp only [hunt, ho, if_true] at h
    rcases Option.eq_none_or_eq_some f.attached with hn | ⟨d, hd⟩
    · rw [hn] at h
      cases h
    · rw [hd] at h
      have hw := hp.within_dictionary hj hd (of_decide_eq_true h) (by omega)
      rwa [e] at hw

theorem three_le_least (f : Finder) (j : Nat) : 3 ≤ (hunt f j).least := by
  simp only [hunt]
  split <;> omega

theorem least_le (f : Finder) (j : Nat) : (hunt f j).least ≤ 4 := by
  simp only [hunt]
  split <;> omega

theorem repetition_spec (hp : f.Placed i j) (hj : pos ≤ j)
    (hn : repetition (hunt f j) (f.lowest pos) pos offset = n) :
    n = 0 ∨ 3 ≤ n ∧ pos + n ≤ j ∧ Within f.bottom f.span pos offset ∧ Agree f.content pos (pos - offset) n := by
  have hle := agreement_le f.content pos (pos - offset) j
  have ha := agree_agreement f.content pos (pos - offset) j
  unfold repetition at hn
  split at hn
  · grind [Hunt.within_of_reaches, hunt]
  · exact .inl hn.symm

/-- A repetition names the offset of its code. -/
theorem Fitting.listed (reps : Reps) (behind : Bool) (hp : f.Placed i j) (hj : pos ≤ j)
    (hn : repetition (hunt f j) (f.lowest pos) pos offset = n) (h0 : 0 < n) (hc : 0 < code)
    (h : (reps.resolve (if behind then 0 else 1) code).1 = offset) :
    Fits f j reps behind pos ⟨n, code⟩ := by
  rcases repetition_spec hp hj hn with h' | ⟨h3, hle, hw, ha⟩
  · omega
  · exact ⟨h3, hc, hle, by rwa [h], by rwa [h]⟩

/-- Repetitions are matches, and do not reach the end unless they are taken at once. -/
theorem repetitions_spec (hp : f.Placed i j) (hj : pos ≤ j) (offsets : List Nat) :
    ∀ (code longest : Nat) (found : Array Best), 0 < code → Listed reps behind code offsets → pos + longest < j →
      Gathered (Fits f j reps behind pos) found longest →
      let r := repetitions (hunt f j) (f.lowest pos) pos code longest found offsets
      Gathered (Fits f j reps behind pos) r.1 r.2.1 ∧ (r.2.2 = false → longest ≤ r.2.1 ∧ pos + r.2.1 < j) := by
  induction offsets with
  | nil =>
    intro code longest found _ _ hl hfound
    exact ⟨hfound, fun _ => ⟨le_rfl, hl⟩⟩
  | cons offset offsets ih =>
    intro code longest found hc hlist hl hfound
    rw [repetitions]
    have hlist' : Listed reps behind (code + 1) offsets := by
      intro k hk
      have := hlist (k + 1) (by simpa using hk)
      rwa [show code + (k + 1) = code + 1 + k by omega] at this
    generalize hn : repetition (hunt f j) (f.lowest pos) pos offset = n
    split
    · rename_i hlt
      have hfit := Fitting.listed reps behind hp hj hn (by omega) hc (hlist 0 (by simp))
      have hle : pos + n ≤ j := hfit.le_stop
      have hfound' := hfound.push hlt hfit
      split
      · exact ⟨hfound', nofun⟩
      · rename_i hend
        have hne : ¬ pos + n = j := by
          intro h
          apply hend
          rw [h]
          simp [hunt]
        grind
    simp_all

theorem enter3_below (hn : stop ≤ n) (fuel : Nat) :
    ∀ (i : Nat) (t : Table), t.Below n → (enter3 h b stop i t fuel).Below n := by
  induction fuel with
  | zero => exact fun i t ht => ht
  | succ fuel ih =>
    intro i t ht
    rw [enter3]
    split
    · exact ih _ _ (ht.set (by omega))
    · exact ht

theorem Hunt.shortMatch_spec (hp : f.Placed i j) (hj : pos ≤ j) (next3 : Nat)
    (h3 : hash3.Below pos) (reps : Reps) (behind : Bool) :
    let r := (hunt f j).shortMatch (f.lowest pos) pos next3 hash3
    r.1.Below pos ∧ (3 ≤ r.2.length → Fits f j reps behind pos r.2) := by
  have hb := enter3_below (h := (hunt f j).hasher3) (b := f.content) (le_refl pos) (pos - next3) next3 hash3 h3
  refine ⟨hb, ?_⟩
  simp only [Hunt.shortMatch]
  generalize hm : (enter3 (hunt f j).hasher3 (hunt f j).ground.b pos next3 hash3 (pos - next3)).get _ = m
  have hlt : m < pos := hm ▸ hb _
  split
  · rename_i h
    simp only [Bool.and_eq_true, decide_eq_true_eq] at h
    intro hn
    have hle := agreement_le f.content pos m j
    exact .fresh reps behind hn (by change pos + agreement f.content pos m j ≤ j; omega) hlt
      (hp.within_lowest hj h.1 hlt) (agree_agreement f.content pos m j)
  · omega

theorem lookUp_spec {α : Type} {v : α → Nat → Nat → α × Bool} {I : α → Prop} (hp : f.Placed i j)
    (hj : pos ≤ j) (hpos : f.start ≤ pos) (hdict : ∀ {d}, dict = some d → f.attached = some d ∧ Attached.Forested f.content f.start d)
    (hb : g.b = f.content) (hs : g.stop = j)
    (hvisit : ∀ {a m n}, I a → m < pos → Within f.bottom f.span pos (pos - m) → Agree f.content pos m n → pos + n ≤ j → I (v a m n).1)
    (t : Tuning) {a : α} (left : Nat) (ha : I a) : I (lookUp v g t pos a left dict) := by
  rcases dict with _ | d
  · exact ha
  · obtain ⟨hattached, hd⟩ := hdict rfl
    obtain ⟨E, ho, hold, hseek⟩ := hd.search hpos hj
    subst hs
    rw [← hb] at ho hseek
    refine look_spec ho hold (fun ha hm hlt hagree hle => hvisit ha hlt ?_ (hb ▸ hagree) hle) left (fun _ => 0) _ a (hseek _) ha
    exact hp.within_dictionary hj hattached (by omega) hlt

theorem Hunt.searchTrees_spec (hp : f.Placed i j) (hi : i ≤ pos) (hj : pos + hashReach ≤ j)
    (hring : 2 ≤ f.ring) (hwl : 2 ≤ f.lowest pos)
    (hd : ∀ {d}, f.attached = some d → Attached.Forested f.content f.start d) {hash tree : Table}
    (hF : Forested f.content hash tree f.ring pos) (hl : 2 ≤ longest)
    (hls : pos + longest < j) (hfound : Gathered (Fits f j reps behind pos) found longest) :
    let r := (hunt f j).searchTrees (f.lowest pos) pos longest hash tree found
    Forested f.content r.1 r.2.1 f.ring (pos + 1) ∧ pos + 1 ≤ r.2.2.2 ∧
      ∃ l, Gathered (Fits f j reps behind pos) r.2.2.1 l := by
  have hpos : f.start ≤ pos := le_trans hp.start_le hi
  have hfl := hp.first_le
  have hfirst : firstPosition = 2 := rfl
  have hlow := hp.low_le
  obtain ⟨E, hf, hr⟩ := hF.fixed hring le_rfl (by omega)
  change Ground.Fixed (hunt f j).ground.b tree (hunt f j).ground.ring (pos - ((hunt f j).ground.ring - 1)) (pos + 1) E pos at hf
  unfold Hunt.searchTrees enter
  dsimp only
  generalize (hunt f j).hasher.hashAt (hunt f j).ground.b pos = k
  obtain ⟨ht, hgood⟩ := walk_spec (v := Catch.meet j pos) (I := fun c => c.Good (Fits f j reps behind pos) (pos + 9) ∧ pos + c.longest < j) hf
    hp.le_size hwl (fun _ => Iff.rfl) (fun h => h.1)
    (fun h hm hlt ha hn => (h.1.meet hlt (hp.within_lowest (by omega) hm hlt) ha hn).imp_right fun hgo hend =>
      ⟨(hgo h.2 hend).1, (h.1.meet hlt (hp.within_lowest (by omega) hm hlt) ha hn).1, (hgo h.2 hend).2⟩)
    (hunt f j).tries _ (hash.get k) tree ⟨found, longest, pos + 9⟩ (.start (hr.get k).1 (hr.get k).2 (show pos < j by omega)) ⟨⟨hl, hfound, le_rfl⟩, hls⟩
  have hdict {d : Attached} (h : (hunt f j).dict = some d) : f.attached = some d ∧ Attached.Forested f.content f.start d := by
    simp only [hunt] at h
    split at h
    · exact ⟨h, hd h⟩
    · cases h
  have hlook (left : Nat) := lookUp_spec (v := Catch.meet j pos) (I := Catch.Good (Fits f j reps behind pos) (pos + 9)) (g := (hunt f j).ground) hp
    (by omega) hpos hdict rfl rfl (fun h hlt hw ha hn => (h.meet hlt hw ha hn).1) f.tuning left hgood
  exact ⟨Forested.set hring ht.ordered hr, Nat.le_sub_of_add_le (hlook _).reach, _, (hlook _).gathered⟩

/-- A search for all matches of `pos` gives matches only, and keeps the tables in order. -/
theorem allMatches_spec (hp : f.Placed i j) (hi : i ≤ pos) (hj : pos + hashReach ≤ j)
    (hring : 2 ≤ f.ring)
    (hd : ∀ {d}, f.attached = some d → Attached.Forested f.content f.start d)
    (hG : forest.Good f.content f.ring j) (reps : Reps) (behind : Bool) :
    let r := allMatches (hunt f j) forest pos reps behind
    r.forest.Good f.content f.ring j ∧
      ∃ l, Gathered (Fits f j reps behind pos) r.found l := by
  have hreach : hashReach = 8 := rfl
  have hwl : 2 ≤ f.lowest pos := by
    have h1 := f.le_within f.low pos
    have h2 := hp.first_le
    have h3 : firstPosition = 2 := rfl
    unfold Finder.lowest
    omega
  obtain ⟨hash, tree, hash3, next, next3⟩ := forest
  obtain ⟨n, hn0, hn, hns, h3, hF⟩ := hG
  dsimp only at hn h3 hF
  rw [allMatches]
  split
  · exact ⟨⟨n, hn0, hn, hns, h3, hF⟩, 0, .empty _ 0⟩
  have h3 : hash3.Below pos := h3.mono (by omega)
  obtain ⟨n', hn', hF'⟩ := update_forested (g := (hunt f j).ground) (h := (hunt f j).hasher) hring hwl hp.le_size
    (show pos ≤ j by omega) (pos - next) next n hash tree (by omega) hn hF
  have hlist := listed reps behind
  have hreps := repetitions_spec hp (show pos ≤ j by omega) _ 1 ((hunt f j).least - 1) #[] (by omega) hlist
    (by have := least_le f j; omega) (.empty _ _)
  have hF := hF'.mono (show n' ≤ pos by omega)
  have hleast := three_le_least f j
  dsimp only at hreps hF ⊢
  have e : (hunt f j).finder.lowest pos = f.lowest pos := rfl
  rw [e]
  generalize update (hunt f j).ground (hunt f j).hasher (hunt f j).tries (f.lowest pos) pos next hash tree (pos - next) = u
    at hF ⊢
  generalize repetitions (hunt f j) (f.lowest pos) pos 1 ((hunt f j).least - 1) #[] _ = r at hreps ⊢
  obtain ⟨found, longest, atOnce⟩ := r
  obtain ⟨hfound, hlongest⟩ := hreps
  dsimp only at hF hfound hlongest ⊢
  split
  · exact ⟨⟨pos, by omega, le_rfl, by omega, h3, hF⟩, _, hfound⟩
  rename_i hnot
  obtain ⟨hl, hls⟩ := hlongest (by simpa using hnot)
  generalize (decide ((hunt f j).least = 3) && decide (longest < 3)) = short
  have hshort : ∀ r, (if short then (hunt f j).shortMatch (f.lowest pos) pos next3 hash3 else (hash3, ⟨0, 0⟩)) = r →
      r.1.Below pos ∧ (3 ≤ r.2.length → Fits f j reps behind pos r.2) := by
    rintro r rfl
    split
    · grind [Hunt.shortMatch_spec]
    · exact ⟨h3, by simp⟩
  generalize hr : (if short then (hunt f j).shortMatch (f.lowest pos) pos next3 hash3 else (hash3, ⟨0, 0⟩)) = r
  obtain ⟨h3, hbest⟩ := hshort r hr
  obtain ⟨hash3, best⟩ := r
  dsimp only at h3 hbest ⊢
  by_cases hb : 3 ≤ best.length
  · have hfit := hbest hb
    have hfound : Gathered (Fits f j reps behind pos) #[best] best.length :=
      (Gathered.empty _ 0).push (show 0 < best.length by omega) hfit
    simp only [hb, if_true, decide_true, Bool.true_and]
    split
    · exact ⟨⟨pos, by omega, Nat.le_succ _, by omega, h3, hF⟩, _, hfound⟩
    · rename_i hend
      have hne : ¬ pos + best.length = j := by
        intro h
        apply hend
        rw [h]
        simp [hunt]
      have hle := hfit.le_stop
      obtain ⟨h1, h2, h4⟩ := Hunt.searchTrees_spec hp hi hj hring hwl hd hF (show 2 ≤ best.length by omega)
        (by omega) hfound
      exact ⟨⟨pos + 1, by omega, h2, by omega, h3.mono (by omega), h1⟩, h4⟩
  · simp only [hb, if_false, decide_false, Bool.false_and, Bool.false_eq_true]
    obtain ⟨h1, h2, h4⟩ := Hunt.searchTrees_spec hp hi hj hring hwl hd hF (show 2 ≤ longest by omega) hls hfound
    exact ⟨⟨pos + 1, by omega, h2, by omega, h3.mono (by omega), h1⟩, h4⟩

end

end ZstCodec.Match.Tree
