import ZstCodec.Proofs.Match.Search
import ZstCodec.Proofs.Match.Tree
import ZstCodec.Match.LateTree

/-! # Trees sorted late

The positions of a set `E` are sorted into trees; the others have a mark and a link to the position of the same hash
before them. A search sorts in those it comes upon, for which it turns their links around: meanwhile a list of positions
is neither sorted nor marked. -/

namespace ZstCodec.Match

variable {best : Best} {g : Ground} {floor lim' low n stop window windowLow : Nat} {dict : Option Attached} {t₀ : Table}

namespace LateTree

open Match.Tree

/-! ### Sorted and unsorted positions -/

/-- An unsorted position is marked and linked to an older one. -/
structure Unsorted (t : Table) (ring lim : Nat) (V : Nat → Prop) (a : Nat) : Prop where
  lt : t.get (slot ring a false) < a
  older : t.get (slot ring a false) ≤ lim ∨ V (t.get (slot ring a false))
  mark : t.get (slot ring a true) = unsorted

theorem Unsorted.mono (h : Unsorted t ring lim V a) (hl : lim ≤ lim')
    (hV : ∀ {x}, V x → V' x) (ht : ∀ d, t'.get (slot ring a d) = t.get (slot ring a d)) : Unsorted t' ring lim' V' a := by
  refine ⟨?_, ?_, ?_⟩
  · rw [ht]
    exact h.lt
  · rw [ht]
    exact h.older.imp (fun h => by omega) hV
  · rw [ht]
    exact h.mark

/-- Of the positions of `V`, those of `E` are sorted, and those of `c` are about to be. All others are unsorted. -/
structure Late (b : ByteArray) (t : Table) (ring lim top : Nat) (V E : Nat → Prop) (c : List Nat) : Prop where
  ordered : Ordered b t ring lim top E
  holds : t.Holds (2 * ring)
  lt_top : ∀ {a}, V a → a < top
  sorted : ∀ {a}, E a → V a
  waiting : ∀ {a}, a ∈ c → V a ∧ lim < a ∧ ¬ E a
  rest : ∀ {a}, V a → lim < a → ¬ E a → a ∉ c → Unsorted t ring lim V a

theorem slot_lt (h : 0 < ring) (a : Nat) (d : Bool) : slot ring a d < 2 * ring := by
  have := Nat.mod_lt a h
  have := d.toNat_lt
  unfold slot
  omega

theorem slot_ne (ring a : Nat) : slot ring a true ≠ slot ring a false := Nat.succ_ne_self _

namespace Late

variable {b : ByteArray} {t : Table} {ring lim top : Nat} {V E : Nat → Prop} {c : List Nat}

theorem mono {top' : Nat} (h : Late b t ring lim top V E []) (hl : lim ≤ lim') (ht : top ≤ top')
    (hr : top' ≤ lim' + ring) : Late b t ring lim' top' V E [] where
  ordered := h.ordered.mono hl ht hr
  holds := h.holds
  lt_top ha := lt_of_lt_of_le (h.lt_top ha) ht
  sorted := h.sorted
  waiting ha := by simp at ha
  rest ha hla hE hc := (h.rest ha (by omega) hE hc).mono hl id fun _ => rfl

theorem append (h : Late b t ring lim top V E c) (d : ByteArray) : Late (b ++ d) t ring lim top V E c :=
  { h with ordered := h.ordered.append d }

theorem enter (h : Late b t ring lim i V E []) (hring : 0 < ring) (hr : i + 1 ≤ lim + ring)
    (ho : older < i) (hV : older ≤ lim ∨ V older) :
    Late b ((t.set (slot ring i false) older).set (slot ring i true) unsorted) ring lim (i + 1) (fun a => V a ∨ a = i) E [] := by
  -- the places of the positions before `i` are not touched
  have hframe {a : Nat} (d : Bool) (ha : V a) (hla : lim < a) :
      ((t.set (slot ring i false) older).set (slot ring i true) unsorted).get (slot ring a d) = t.get (slot ring a d) := by
    have hai := h.lt_top ha
    have hne {e : Bool} : slot ring i e ≠ slot ring a d := fun heq => by
      have := (Ordered.slot_inj hr (by omega) hla (by omega) (by omega) heq).1
      omega
    rw [Table.get_set_ne _ _ hne, Table.get_set_ne _ _ hne]
  have h0 : ((t.set (slot ring i false) older).set (slot ring i true) unsorted).get (slot ring i false) = older := by
    rw [Table.get_set_ne _ _ (slot_ne ring i), h.holds.get_set (slot_lt hring i false)]
  have h1 : ((t.set (slot ring i false) older).set (slot ring i true) unsorted).get (slot ring i true) = unsorted :=
    (h.holds.set _ _).get_set (slot_lt hring i true) _
  refine ⟨?_, (h.holds.set _ _).set _ _, ?_, fun ha => .inl (h.sorted ha), by simp, ?_⟩
  · exact (Shrinks.of_eq fun ha hla => hframe _ (h.sorted ha) hla).ordered (h.ordered.mono le_rfl (Nat.le_succ _) hr)
  · rintro a (ha | rfl)
    · have := h.lt_top ha
      omega
    · omega
  · rintro a (ha | rfl) hla hE hc
    · exact (h.rest ha hla hE hc).mono le_rfl .inl fun d => hframe d ha hla
    · exact ⟨by rwa [h0], by rw [h0]; exact hV.imp_right .inl, h1⟩

end Late

/-- The positions entered so far, all below `n`; `hash` has the last of each hash. -/
def Entered (b : ByteArray) (hash t : Table) (ring lim n : Nat) : Prop :=
  ∃ V E, Late b t ring lim n V E [] ∧ hash.All fun a => a < n ∧ (a ≤ lim ∨ V a)

theorem Entered.mono {hash t : Table} (h : Entered b hash t ring lim n)
    (hl : lim ≤ lim') (hn : n ≤ n') (hr : n' ≤ lim' + ring) : Entered b hash t ring lim' n' := by
  obtain ⟨V, E, hL, hr'⟩ := h
  exact ⟨V, E, hL.mono hl hn hr, hr'.imp fun h => ⟨lt_of_lt_of_le h.1 hn, h.2.imp_left fun h => by omega⟩⟩

/-- A position that has been entered may become the last of its hash. -/
theorem Entered.set {hash t : Table} {V V' E : Nat → Prop}
    (hL : Late b t ring lim (pos + 1) V' E []) (hV : ∀ {a}, V a ∨ a = pos → V' a)
    (hr : hash.All fun a => a < pos ∧ (a ≤ lim ∨ V a)) (k : Nat) : Entered b (hash.set k pos) t ring lim (pos + 1) :=
  ⟨V', E, hL, (hr.imp fun h => ⟨Nat.lt_succ_of_lt h.1, h.2.imp_right fun h => hV (.inl h)⟩).set k
    ⟨Nat.lt_succ_self _, .inr (hV (.inr rfl))⟩⟩

theorem enter_entered (hring : 0 < ring) (hlim : stop ≤ lim + ring)
    (fuel : Nat) :
    ∀ (i : Nat) (hash t : Table), i ≤ stop → stop ≤ i + fuel → Entered b hash t ring lim i →
      Entered b (LateTree.enter h b ring stop i hash t fuel).1 (LateTree.enter h b ring stop i hash t fuel).2 ring lim stop := by
  induction fuel with
  | zero =>
    intro i hash t hi hf hE
    obtain rfl : i = stop := by omega
    exact hE
  | succ fuel ih =>
    intro i hash t hi hf hE
    rw [LateTree.enter]
    split
    · obtain ⟨V, E, hL, hr⟩ := hE
      exact ih _ _ _ (by omega) (by omega)
        (.set (hL.enter hring (by omega) (hr.get _).1 (hr.get _).2) id hr _)
    grind

/-! ### Sorting -/

section

variable {b : ByteArray} {t t' : Table} {ring lim top a m : Nat} {V E : Nat → Prop} {c c' : List Nat}

theorem Late.sortIn (h : Late b t ring lim top V E c) (ha : V a) (hs : ∀ {x}, x ∈ c' → x ∈ c ∧ x ≠ a)
    (hc : ∀ {x}, x ∈ c → x = a ∨ x ∈ c') (ht : Topped b t ring lim top E a t') (hh : t'.Holds (2 * ring)) :
    Late b t' ring lim top V (fun x => E x ∨ x = a) c' := by
  refine ⟨ht.ordered, hh, h.lt_top, ?_, ?_, ?_⟩
  · rintro x (hx | rfl)
    · exact h.sorted hx
    · exact ha
  · intro x hx
    obtain ⟨hxc, hne⟩ := hs hx
    obtain ⟨h1, h2, h3⟩ := h.waiting hxc
    simp_all
  · intro x hx hlx hE hxc
    rw [not_or] at hE
    exact (h.rest hx hlx hE.1 fun h => (hc h).elim hE.2 hxc).mono le_rfl id fun _ =>
      ht.frame hlx (h.lt_top hx) hE.1 hE.2

/-- Positions whose links have been turned around, from the oldest on; `m` is the one before them. -/
def Linked (t : Table) (ring : Nat) : Nat → List Nat → Prop
  | _, [] => True
  | m, a :: c => t.get (slot ring a false) = m ∧ m < a ∧ t.get (slot ring a true) = c.headD 0 ∧ Linked t ring a c

theorem Linked.lt (h : Linked t ring m c) : ∀ a ∈ c, m < a := by
  induction c generalizing m with
  | nil => simp
  | cons x c ih =>
    obtain ⟨-, hlt, -, hc⟩ := h
    grind

theorem Linked.frame (h : Linked t ring m c)
    (he : ∀ a ∈ c, ∀ d, t'.get (slot ring a d) = t.get (slot ring a d)) : Linked t' ring m c := by
  induction c generalizing m with
  | nil => trivial
  | cons x c ih =>
    obtain ⟨h0, hlt, h1, hc⟩ := h
    have hx := he x (by simp)
    exact ⟨by rw [hx, h0], hlt, by rw [hx, h1], ih hc fun a ha => he a (by simp [ha])⟩

variable (h : Late b t ring lim top V E c)

include h

theorem Late.fixed (ha : V a) (hla : lim < a) (hE : ¬ E a) :
    Ground.Fixed b t ring lim top E a :=
  ⟨h.ordered, hE, hla, h.lt_top ha⟩

theorem Late.nullify (hm : V m) (hlm : lim < m) (hE : ¬ E m) (hc : m ∉ c) :
    Late b ((t.set (slot ring m false) 0).set (slot ring m true) 0) ring lim top V (fun x => E x ∨ x = m) c := by
  have hcl : Closable b t ring lim top E m t ⟨2 * (m % ring), 2 * (m % ring) + 1, 0, 0⟩ :=
    Walks.closable (show Walks b t ring lim top E m (m + 1) t _ 0 from
      .start (.inl (Nat.zero_le _)) (by omega) (by omega))
  exact h.sortIn hm (fun hx => ⟨hx, fun h => hc (h ▸ hx)⟩) .inr (hcl.topped (h.fixed hm hlm hE)) ((h.holds.set _ _).set _ _)

/-- Turn the link of an unsorted position around. -/
theorem Late.turn (hm : V m) (hlm : lim < m) (hE : ¬ E m) (hc : m ∉ c) (v : Nat) :
    Late b (t.set (slot ring m true) v) ring lim top V E (m :: c) ∧
      ∀ {u d}, lim < u → u < top → u ≠ m → (t.set (slot ring m true) v).get (slot ring u d) = t.get (slot ring u d) := by
  have hframe {u : Nat} {d : Bool} (hlu : lim < u) (hut : u < top) (hum : u ≠ m) :
      (t.set (slot ring m true) v).get (slot ring u d) = t.get (slot ring u d) :=
    Table.get_set_ne _ _ fun heq => hum (Ordered.slot_inj h.ordered.ring_le hlm hlu (h.lt_top hm) hut heq).1.symm
  refine ⟨⟨?_, h.holds.set _ _, h.lt_top, h.sorted, ?_, ?_⟩, hframe⟩
  · exact (Shrinks.of_eq fun ha hla => hframe hla (h.ordered.lt_top ha) (fun h => hE (h ▸ ha))).ordered h.ordered
  · intro x hx
    rcases List.mem_cons.1 hx with rfl | hx
    · exact ⟨hm, hlm, hE⟩
    · exact h.waiting hx
  · intro x hx hlx hE hxc
    rw [List.mem_cons, not_or] at hxc
    exact (h.rest hx hlx hE hxc.2).mono le_rfl id fun _ => hframe hlx (h.lt_top hx) hxc.1

end

/-- Following unsorted positions turns their links around; what lies before them is sorted. -/
theorem collect_spec (hring : 0 < g.ring) (left : Nat) :
    ∀ (m : Nat) (t : Table) (E : Nat → Prop) (c : List Nat), left ≠ 0 → Late g.b t g.ring lim top V E c →
      Linked t g.ring m c → (m ≤ lim ∨ V m) →
      let r := collect g lim m (c.headD 0) t left
      ∃ E' c' m', Late g.b r.1 g.ring lim top V E' c' ∧ Linked r.1 g.ring m' c' ∧ (m' ≤ lim ∨ E' m') ∧
        r.2.1 = c'.headD 0 ∧ c'.length < c.length + left ∧ (m ≤ lim ∨ E' m ∨ m ∈ c') ∧ ∀ a ∈ c, a ∈ c' := by
  induction left with
  | zero => exact fun m t E c h => absurd rfl h
  | succ left ih =>
    intro m t E c _ hL hlink hm
    rw [collect]
    split
    · rename_i hcond
      simp only [Bool.and_eq_true, decide_eq_true_eq, beq_iff_eq] at hcond
      obtain ⟨hlm, hmark⟩ := hcond
      have hV := hm.resolve_left (by omega)
      have hE : ¬ E m := fun hE => (hL.ordered.child true hE hlm).ne_one hmark
      have hc : m ∉ c := fun h => lt_irrefl _ (hlink.lt m h)
      split
      · have hL' := hL.nullify hV hlm hE hc
        refine ⟨_, c, m, hL', hlink.frame fun a ha d => ?_, .inr (.inr rfl), rfl, by omega, .inr (.inl (.inr rfl)),
          fun a h => h⟩
        obtain ⟨hVa, hla, -⟩ := hL.waiting ha
        have hne {e : Bool} : slot g.ring m e ≠ slot g.ring a d := fun heq => by
          have := (Ordered.slot_inj hL.ordered.ring_le hlm hla (hL.lt_top hV) (hL.lt_top hVa) heq).1
          exact hc (this ▸ ha)
        exact (Table.get_set_ne _ _ (hne (e := true))).trans (Table.get_set_ne _ _ (hne (e := false)))
      · rename_i hleft
        obtain ⟨hL', hframe⟩ := hL.turn hV hlm hE hc (c.headD 0)
        obtain ⟨hlt, holder, -⟩ := hL.rest hV hlm hE hc
        have hlink' : Linked (t.set (slot g.ring m true) (c.headD 0)) g.ring (t.get (slot g.ring m false)) (m :: c) := by
          refine ⟨Table.get_set_ne _ _ (slot_ne g.ring m), hlt, hL.holds.get_set (slot_lt hring m true) _,
            hlink.frame fun a ha d => ?_⟩
          obtain ⟨hVa, hla, -⟩ := hL.waiting ha
          exact hframe hla (hL.lt_top hVa) fun h => hc (h ▸ ha)
        obtain ⟨E', c', m', h1, h2, h3, h4, h5, h6, h7⟩ := ih _ _ E (m :: c) hleft hL' hlink' holder
        exact ⟨E', c', m', h1, h2, h3, h4, by simp at h5; omega, .inr (.inr (h7 m (by simp))), fun a ha => h7 a (by simp [ha])⟩
    · rename_i hcond
      have hm' : m ≤ lim ∨ E m := by
        by_contra hnot
        rw [not_or, not_le] at hnot
        have hc : m ∉ c := fun h => lt_irrefl _ (hlink.lt m h)
        apply hcond
        simp only [Bool.and_eq_true, decide_eq_true_eq, beq_iff_eq]
        exact ⟨hnot.1, (hL.rest (hm.resolve_left (by omega)) hnot.1 hnot.2 hc).mark⟩
      grind

structure Bounds (g : Ground) (top : Nat) : Prop where
  ring_pos : 0 < g.ring
  low : 1 ≤ g.low
  start_le : g.start ≤ g.b.size
  stop_le : g.stop ≤ g.b.size
  top_le : top ≤ g.stop

theorem sort_spec (hg : Bounds g top)
    (hL : Late g.b t g.ring lim top V E (a :: c)) (hlink : Linked t g.ring m (a :: c)) (hm : m ≤ lim ∨ E m) (left : Nat) :
    Late g.b (sort g a lim t left) g.ring lim top V (fun x => E x ∨ x = a) c ∧ Linked (sort g a lim t left) g.ring a c := by
  obtain ⟨hV, hla, hE⟩ := hL.waiting (a := a) (by simp)
  obtain ⟨h0, hlt, -, hc⟩ := hlink
  have hf := hL.fixed hV hla hE
  have hat := hL.lt_top hV
  have htop := hg.top_le
  have hstop : a < (if g.start ≤ a then g.stop else g.start) ∧ (if g.start ≤ a then g.stop else g.start) ≤ g.b.size := by
    have h1 := hg.start_le
    have h2 := hg.stop_le
    split <;> omega
  have hwl : 2 ≤ (if g.low + g.window < a then a - g.window else g.low) + 1 := by
    have := hg.low
    split <;> omega
  have hac : a ∉ c := fun h => lt_irrefl _ (hc.lt a h)
  have h0 : t.get (2 * (a % g.ring)) = m := h0
  unfold sort Tree.enter
  dsimp only
  rw [h0]
  obtain ⟨ht, -⟩ := walk_spec (v := fun _ _ n => ((), decide (a + n = if g.start ≤ a then g.stop else g.start))) (I := fun _ => True) hf hstop.2 hwl
    (fun _ => Iff.rfl) id (fun _ _ _ _ _ => ⟨trivial, fun hend => ⟨of_decide_eq_false hend, trivial⟩⟩) left
    ⟨2 * (a % g.ring), 2 * (a % g.ring) + 1, 0, 0⟩ m t () (.start hm hlt hstop.1) trivial
  refine ⟨hL.sortIn hV (fun hx => ⟨by simp [hx], fun h => hac (h ▸ hx)⟩) (fun hx => by simpa using hx) ht (walk_holds _ _ _ _ _ hL.holds),
    hc.frame fun x hx d => ?_⟩
  obtain ⟨hVx, hlx, hEx⟩ := hL.waiting (a := x) (by simp [hx])
  exact ht.frame hlx (hL.lt_top hVx) hEx fun h => hac (h ▸ hx)

theorem sortAll_spec (hg : Bounds g top) (c : List Nat) :
    ∀ (m left : Nat) (t : Table) (E : Nat → Prop) (fuel : Nat), c.length < fuel → Late g.b t g.ring lim top V E c →
      Linked t g.ring m c → (m ≤ lim ∨ E m) →
      ∃ E', Late g.b (sortAll g lim (c.headD 0) left t fuel) g.ring lim top V E' [] ∧
        (∀ a, E a → E' a) ∧ ∀ a ∈ c, E' a := by
  induction c with
  | nil =>
    intro m left t E fuel hfuel hL _ _
    obtain ⟨fuel, rfl⟩ : ∃ k, fuel = k + 1 := ⟨fuel - 1, by omega⟩
    exact ⟨E, hL, fun a h => h, by simp⟩
  | cons a c ih =>
    intro m left t E fuel hfuel hL hlink hm
    obtain ⟨fuel, rfl⟩ : ∃ k, fuel = k + 1 := ⟨fuel - 1, by omega⟩
    obtain ⟨-, hla, -⟩ := hL.waiting (a := a) (by simp)
    obtain ⟨hL', hlink'⟩ := sort_spec hg hL hlink hm left
    have h1 : t.get (2 * (a % g.ring) + 1) = c.headD 0 := hlink.2.2.1
    obtain ⟨E', h2, h3, h4⟩ := ih a (left + 1) _ _ fuel (by simpa using hfuel) hL' hlink' (.inr (.inr rfl))
    rw [sortAll, List.headD_cons, if_neg (by omega)]
    grind

/-- After the unsorted positions met from `m` on are sorted in, so is `m`. -/
theorem settle_spec (tries : Nat) (hg : Bounds g top)
    (hL : Late g.b t g.ring lim top V E []) (hm : m ≤ lim ∨ V m) (htries : tries ≠ 0) :
    ∃ E', Late g.b (settle g lim m t tries) g.ring lim top V E' [] ∧ (m ≤ lim ∨ E' m) := by
  obtain ⟨E', c', m', h1, h2, h3, h4, h5, h6, -⟩ := collect_spec hg.ring_pos tries m t E [] htries hL trivial hm
  unfold settle
  dsimp only [List.headD_nil] at h1 h2 h4 ⊢
  generalize collect g lim m 0 t tries = r at h1 h2 h4 ⊢
  obtain ⟨t', oldest, left⟩ := r
  obtain ⟨E'', h7, h8, h9⟩ := sortAll_spec hg c' m' left t' E' (tries + 1) (by simp at h5; omega) h1 h2 h3
  grind

/-! ### Searching -/

/-- The best match so far is one, and the one that reaches farthest ends at `r` or behind it. -/
def Met (b : ByteArray) (low window stop pos r : Nat) (a : Best × Nat) : Prop :=
  (0 < a.1.length → a.1.Good b low window stop pos) ∧ r ≤ a.2

/-- A longer match that is worth its offset is a match. One that reaches the end of the block ends the search. -/
theorem Met.meet (h : Met b low window stop pos r a) (extra : Nat) (hm : m < pos)
    (hw : Within low window pos (pos - m)) (ha : Agree b pos m n) (hn : pos + n ≤ stop) :
    Met b low window stop pos r (LateTree.meet stop pos extra a m n).1 ∧ (pos + a.1.length < stop → (LateTree.meet stop pos extra a m n).2 = false →
      pos + n ≠ stop ∧ pos + (LateTree.meet stop pos extra a m n).1.1.length < stop) := by
  obtain ⟨best, reach⟩ := a
  obtain ⟨hb, hr⟩ := h
  refine ⟨⟨?_, hr.trans (le_farther _ _ _ _)⟩, ?_⟩
  · dsimp only [LateTree.meet] at hb ⊢
    grind [Best.Good.of_source]
  · dsimp only [LateTree.meet]
    grind

theorem Late.await (h : Late b t ring lim pos V E [])
    (hlt : lim < pos) (hr : pos + 1 ≤ lim + ring) : Late b t ring lim (pos + 1) (fun a => V a ∨ a = pos) E [pos] := by
  have hL := h.mono le_rfl (Nat.le_succ pos) hr
  have hV {a : Nat} (ha : V a ∨ a = pos) (hc : a ∉ [pos]) : V a := ha.resolve_right (by simpa using hc)
  refine ⟨hL.ordered, hL.holds, ?_, fun ha => .inl (hL.sorted ha), ?_, ?_⟩
  · rintro a (ha | rfl)
    · exact hL.lt_top ha
    · omega
  · intro a ha
    obtain rfl : a = pos := by simpa using ha
    exact ⟨.inr rfl, hlt, fun hE => lt_irrefl _ (h.lt_top (h.sorted hE))⟩
  · exact fun ha hla hE hc => (hL.rest (hV ha hc) hla hE (by simp)).mono le_rfl .inl fun _ => rfl

/-- Nothing is known, or needed, of positions up to `lim`. -/
theorem Late.of_le (hh : t.Holds (2 * ring)) (ht : top ≤ lim + 1)
    (hr : top ≤ lim + ring) : Late b t ring lim top (fun a => a < top) (fun _ => False) [] :=
  ⟨.empty b t hr, hh, id, nofun, by simp, fun ha hla => by omega⟩

/-- Positions up to here are no longer looked at when `pos` is searched for. -/
def limitAt (f : Finder) (pos : Nat) : Nat := max (pos - (f.ring - 1)) (f.lowest pos)

theorem limitAt_mono (f : Finder) (h : pos ≤ q) : limitAt f pos ≤ limitAt f q := by
  have := f.within_mono f.low h
  unfold limitAt Finder.lowest
  omega

/-- The tables hold positions below `n` as they should. -/
def Kept (f : Finder) (e : Entries) (n : Nat) : Prop :=
  ∃ n', 0 < n' ∧ n' ≤ n ∧ n' ≤ e.next ∧
    Entered f.content e.hash e.chain f.ring (limitAt f n') n'

section

variable {f : Finder} {i j pos : Nat}

/-- What is left after the search for a place: the tree with that place in it. -/
theorem search_entered (hp : f.Placed i j) (hi : i ≤ pos) (hj : pos + hashReach ≤ j) (hring : 2 ≤ f.ring)
    (hgb : g.b = f.content) (hgr : g.ring = f.ring) (hgs : g.stop = j)
    (hL : Late f.content t f.ring (limitAt f pos) pos V E [])
    (hm : m ≤ limitAt f pos ∨ E m) (hlt : m < pos) (reach left : Nat) :
    let r := Tree.enter (meet j pos 0) g pos (f.lowest pos + 1) (pos - (g.ring - 1)) j m t (⟨0, noCode⟩, reach) left
    (∃ V' E', Late f.content r.tree f.ring (limitAt f pos) (pos + 1) V' E' [] ∧
        ∀ {a}, V a ∨ a = pos → V' a) ∧ Met f.content f.bottom f.span j pos reach r.got := by
  have hreach : hashReach = 8 := rfl
  have hlow : 2 ≤ f.lowest pos := by
    have h1 := f.le_within f.low pos
    have h2 := hp.first_le
    have h3 : firstPosition = 2 := rfl
    unfold Finder.lowest
    omega
  obtain ⟨b, ring, start, low, window, stop⟩ := g
  dsimp only at hgb hgr hgs ⊢
  subst hgb hgr hgs
  have hlim : limitAt f pos = max (pos - (f.ring - 1)) (f.lowest pos) := rfl
  have hnone : Met f.content f.bottom f.span stop pos reach (⟨0, noCode⟩, reach) := ⟨fun h => absurd h (lt_irrefl 0), le_rfl⟩
  have hr : pos + 1 ≤ limitAt f pos + f.ring := by omega
  by_cases hlt' : limitAt f pos < pos
  · have hL' := hL.await hlt' hr
    have hf := hL'.fixed (a := pos) (.inr rfl) hlt' fun hE => lt_irrefl _ (hL.lt_top (hL.sorted hE))
    have hfl {m : Nat} (hm : f.lowest pos < m) :
        m ≤ pos - (f.ring - 1) ↔ m ≤ limitAt f pos := by omega
    obtain ⟨ht, hmet⟩ := walk_spec (v := meet stop pos 0) (I := fun a => Met f.content f.bottom f.span stop pos reach a ∧ pos + a.1.length < stop)
      (Q := Met f.content f.bottom f.span stop pos reach) (g := ⟨f.content, f.ring, start, low, window, stop⟩) hf hp.le_size (by omega) hfl And.left
      (fun ha hm hlt hagree hle =>
        have hmet := ha.1.meet 0 hlt (hp.within_lowest (by omega) (Nat.le_of_succ_le hm) hlt) hagree hle
        ⟨hmet.1, fun hend => ⟨(hmet.2 ha.2 hend).1, hmet.1, (hmet.2 ha.2 hend).2⟩⟩) left
      ⟨2 * (pos % f.ring), 2 * (pos % f.ring) + 1, 0, 0⟩ m t (⟨0, noCode⟩, reach) (.start hm hlt (show pos < stop by omega)) ⟨hnone, by dsimp only; omega⟩
    exact ⟨⟨_, _, hL'.sortIn (.inr rfl) (by simp) (by simp) ht (walk_holds _ _ _ _ _ hL.holds), id⟩, hmet⟩
  · -- the window starts at this very place, so nothing is looked at
    have e : walk (meet stop pos 0) ⟨f.content, f.ring, start, low, window, stop⟩ pos (f.lowest pos + 1) (pos - (f.ring - 1)) stop
        ⟨2 * (pos % f.ring), 2 * (pos % f.ring) + 1, 0, 0⟩ m t (⟨0, noCode⟩, reach) left =
        ⟨Split.close ⟨2 * (pos % f.ring), 2 * (pos % f.ring) + 1, 0, 0⟩ t, (⟨0, noCode⟩, reach), left, false⟩ := by
      cases left with
      | zero => rfl
      | succ left => rw [walk, if_pos (by omega)]
    rw [Tree.enter, e]
    refine ⟨⟨_, _, .of_le (Holds.close hL.holds _) (by omega) hr, ?_⟩, hnone⟩
    rintro a (ha | rfl)
    · have := hL.lt_top ha
      omega
    · omega

theorem search_sound (hp : f.Placed i j) (hring : 2 ≤ f.ring)
    (hdict : ∀ {d}, dict = some d → f.attached = some d ∧ Attached.Forested f.content f.start d) :
    Searcher.Sound (search f j dict) f i j (Kept f) where
  step {e n pos} skipping h hn hi hl := by
    have hfl := hp.first_le
    have hst := hp.start_le
    have hfirst : firstPosition = 2 := rfl
    obtain ⟨hash, tree, tags, next⟩ := e
    obtain ⟨n', h0, h1, h2, hE⟩ := h
    dsimp only at h2 hE
    unfold search
    dsimp only
    split
    · exact ⟨⟨n', h0, by omega, h2, hE⟩, fun h => absurd h (show ¬ 4 ≤ 0 by decide)⟩
    have hlim : limitAt f pos = max (pos - (f.ring - 1)) (f.lowest pos) := rfl
    have hE := hE.mono (limitAt_mono f (show n' ≤ pos by omega)) h2 (by omega)
    rw [← hlim]
    generalize Hasher.ofWidth (searchWidth f.tuning) f.tuning.hashLog 0 = h at hE ⊢
    have hlr : pos ≤ limitAt f pos + f.ring := by omega
    have hE := enter_entered (h := h) (Nat.two_pow_pos _) hlr (pos - next) next hash tree (by omega) (by omega) hE
    obtain ⟨V, E, hL, hr⟩ := hE
    generalize h.hashAt f.content pos = k
    have hg : Bounds ⟨f.content, f.ring, f.start, f.low, 2 ^ f.tuning.windowLog, j⟩ pos := by
      have h1 := hp.le_size
      exact ⟨Nat.two_pow_pos _, by dsimp only; omega, by dsimp only; omega, h1, by dsimp only; omega⟩
    obtain ⟨E', hL', hm⟩ := settle_spec (2 ^ f.tuning.searchLog) hg hL (hr.get k).2
      (by simp)
    obtain ⟨⟨V', E'', hL'', hV⟩, hmet⟩ := search_entered hp hi (by omega) hring
      (g := ⟨f.content, f.ring, f.start, f.low, 2 ^ f.tuning.windowLog, j⟩) rfl rfl rfl hL' hm (hr.get k).1 (pos + 9) (2 ^ f.tuning.searchLog)
    generalize Tree.enter _ _ _ _ _ _ _ _ _ _ = r at hL'' hmet ⊢
    obtain ⟨tree'', ⟨best, reach⟩, left, done⟩ := r
    refine ⟨⟨pos + 1, by omega, le_rfl, Nat.le_sub_of_add_le hmet.2, ?_⟩, fun h4 => ?_⟩
    · have : limitAt f (pos + 1) = max (pos + 1 - (f.ring - 1)) (f.lowest (pos + 1)) := rfl
      exact (Entered.set hL'' hV hr k).mono (limitAt_mono f (Nat.le_succ pos)) le_rfl (by omega)
    · exact (lookUp_spec (v := meet j pos 1) (I := Met f.content f.bottom f.span j pos (pos + 9)) hp (by omega) (by omega) hdict rfl rfl
        (fun ha hlt hw hagree hle => (ha.meet 1 hlt hw hagree hle).1) f.tuning _ hmet).1 (Nat.zero_lt_of_lt h4)

end

end LateTree

end ZstCodec.Match
