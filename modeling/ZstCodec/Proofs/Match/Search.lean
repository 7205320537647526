import ZstCodec.Proofs.Match.Explains
import ZstCodec.Match.Chain
import ZstCodec.Match.Row

/-! # What a search for the longest match gives

A search is *sound* if whatever it gives as a match is one. Hash chains and rows need only know that the tables hold
positions before the place searched for: every candidate is compared byte by byte. -/

namespace ZstCodec.Match

variable {f : Finder} {h : Hasher} {i j m n size : Nat} {dict : Option Attached} {hash tags : Table}

/-- A match at `pos` with an offset of its own. -/
def Best.Good (b : ByteArray) (low window stop pos : Nat) (best : Best) : Prop :=
  ∃ o, best.code = o + 3 ∧ Within low window pos o ∧ Agree b pos (pos - o) best.length ∧ pos + best.length ≤ stop

section

variable {b : ByteArray} {low window stop pos : Nat} {best : Best}

theorem Best.Good.of_source (hm : m < pos) (hw : Within low window pos (pos - m)) (ha : Agree b pos m n)
    (hn : pos + n ≤ stop) : Best.Good b low window stop pos ⟨n, pos - m + 3⟩ :=
  ⟨pos - m, rfl, hw, by grind, hn⟩

/-- The best of some candidates: a match, or nothing longer than three bytes. -/
def Best.Fair (b : ByteArray) (low window stop pos : Nat) (best : Best) : Prop :=
  (3 < best.length → best.Good b low window stop pos) ∧ 3 ≤ best.length

theorem Best.Fair.none : Best.none.Fair b low window stop pos := ⟨by simp [Best.none], le_refl 3⟩

/-- A candidate in reach is taken only if it is a longer match. -/
theorem Best.Fair.consider (h : best.Fair b low window stop pos) (hp : pos ≤ stop) (hm : m < pos)
    (hw : Within low window pos (pos - m)) : (best.consider b pos m stop).Fair b low window stop pos := by
  have hle := agreement_le b pos m stop
  have hleast := h.2
  unfold Best.consider
  dsimp only
  split
  · split
    · exact ⟨fun _ => .of_source hm hw (agree_agreement b pos m stop) (by omega), by dsimp only; omega⟩
    · exact h
  · exact h

end

/-- A search gives matches only; `Inv e n` says that the tables hold positions below `n` as they should. -/
structure Searcher.Sound (search : Searcher) (f : Finder) (i j : Nat) (Inv : Entries → Nat → Prop) : Prop where
  step : ∀ {e n pos} (skipping : Bool), Inv e n → n ≤ pos → i ≤ pos → pos ≤ j - hashReach →
    Inv (search e pos skipping).entries (pos + 1) ∧
      (4 ≤ (search e pos skipping).best.length → (search e pos skipping).best.Good f.content f.bottom f.span j pos)

/-! ### Chains -/

namespace Chain

theorem enter_below (hn : stop ≤ n) (fuel : Nat) :
    ∀ (i : Nat) (hash chain : Table), hash.Below n → chain.Below n →
      (enter h b ring stop skipping i hash chain fuel).1.Below n ∧
        (enter h b ring stop skipping i hash chain fuel).2.Below n := by
  induction fuel with
  | zero => exact fun i hash chain hh hc => ⟨hh, hc⟩
  | succ fuel ih =>
    intro i hash chain hh hc
    rw [enter]
    split
    · have hh' : (hash.set (h.hashAt b i) i).Below n := hh.set (by omega)
      have hc' : (chain.set (i % ring) (hash.get (h.hashAt b i))).Below n := hc.set (hh _)
      grind
    · exact ⟨hh, hc⟩

theorem Walk.run_fair {w : Walk} {low window pos : Nat} (hchain : w.chain.Below pos) (hp : pos ≤ w.stop)
    (hreach : ∀ {m}, w.low ≤ m → m < pos → Within low window pos (pos - m)) (left : Nat) :
    ∀ (m : Nat) (best : Best), m < pos → best.Fair w.b low window w.stop pos →
      (w.run pos m best left).1.Fair w.b low window w.stop pos := by
  induction left with
  | zero => exact fun m best _ h => h
  | succ left ih =>
    intro m best hm h
    rw [run]
    split
    · exact h
    have h' := h.consider hp hm (hreach (by omega) hm)
    dsimp only
    split
    · exact h'
    split
    · exact h'
    · exact ih _ _ (hchain _) h'

theorem search_sound (hp : f.Placed i j)
    (hdict : ∀ {d}, dict = some d → f.attached = some d ∧ d.tables.hash.Below f.start ∧ d.tables.chain.Below f.start) :
    Searcher.Sound (search f j dict) f i j fun e n => e.hash.Below n ∧ e.chain.Below n where
  step {e n pos} skipping h hn hi hl := by
    have hj : pos ≤ j := le_trans hl (Nat.sub_le _ _)
    have hstart := le_trans hp.start_le hi
    obtain ⟨hash, chain, tags, next⟩ := e
    obtain ⟨hh, hc⟩ := h
    unfold search
    dsimp only
    generalize Hasher.ofWidth (searchWidth f.tuning) f.tuning.hashLog 0 = h
    generalize 2 ^ f.tuning.chainLog = ring
    have hb : (enter h f.content ring pos skipping next hash chain (pos - next)).1.Below pos ∧
        (enter h f.content ring pos skipping next hash chain (pos - next)).2.Below pos :=
      enter_below (le_refl pos) _ _ _ _ (hh.mono hn) (hc.mono hn)
    generalize enter h f.content ring pos skipping next hash chain (pos - next) = r at hb ⊢
    obtain ⟨hash, chain⟩ := r
    obtain ⟨hh, hc⟩ := hb
    refine ⟨⟨hh.mono (by omega), hc.mono (by omega)⟩, ?_⟩
    have hrun := Walk.run_fair (w := ⟨f.content, chain, ring, f.lowest pos, pos - ring, j⟩)
      hc hj (fun hm hlt => hp.within_lowest hj hm hlt) (2 ^ f.tuning.searchLog) (hash.get (h.hashAt f.content pos)) .none
      (hh _) .none
    generalize Walk.run _ _ (hash.get _) _ _ = r at hrun ⊢
    obtain ⟨best, left⟩ := r
    rcases dict with _ | d
    · exact hrun.1
    · obtain ⟨ha, hdh, hdc⟩ := hdict rfl
      refine (Walk.run_fair (w := ⟨f.content, d.tables.chain, 2 ^ d.tuning.chainLog, d.low, d.stop - 2 ^ d.tuning.chainLog, j⟩)
        (hdc.mono hstart) hj (fun hm hlt => hp.within_dictionary hj ha hm hlt) left _ best ?_ hrun).1
      exact hdh.mono hstart _

end Chain

/-! ### Rows -/

namespace Row

theorem put_below (h : hash.Below n) (hi : i < n) :
    (put size hashed i hash tags).1.Below n := h.set hi

theorem enter_below (hn : stop ≤ n) (fuel : Nat) :
    ∀ (i : Nat) (hash tags : Table), hash.Below n → (enter h b size stop i hash tags fuel).1.Below n := by
  induction fuel with
  | zero => exact fun i hash tags hh => hh
  | succ fuel ih =>
    grind [enter, put_below]

theorem enterSome_below (hh : hash.Below stop) :
    (enterSome h b size stop i hash tags).1.Below stop := by
  unfold enterSome
  split
  · have h1 : (enter h b size (i + 96) i hash tags 96).1.Below stop := enter_below (by omega) 96 i hash tags hh
    simp_all [enter_below]
  simp_all [enter_below]

theorem candidates_spec (hh : hash.Below n) (fuel : Nat) :
    ∀ (found : List Nat) (i left : Nat), (∀ m ∈ found, low ≤ m ∧ m < n) →
      ∀ m ∈ (candidates hash tags size row tag head low found i left fuel).1, low ≤ m ∧ m < n := by
  induction fuel with
  | zero =>
    intro found i left hf m hm
    exact hf m (List.mem_reverse.1 hm)
  | succ fuel ih =>
    intro found i left hf
    have hr : ∀ m ∈ found.reverse, low ≤ m ∧ m < n := fun m hm => hf m (List.mem_reverse.1 hm)
    rw [candidates]
    split
    · exact hr
    dsimp only
    split
    · split
      · exact hr
      · refine ih _ _ _ fun m hm => ?_
        rcases List.mem_cons.1 hm with rfl | hm
        · exact ⟨by omega, hh _⟩
        · exact hf m hm
    · exact ih _ _ _ hf

theorem look_spec (hh : hash.Below n) (size hashed left : Nat) :
    ∀ m ∈ (look hash tags size hashed low left).1, low ≤ m ∧ m < n :=
  candidates_spec hh _ _ _ _ (by simp)

theorem bestOf_fair (hp : pos ≤ stop) (ms : List Nat) :
    ∀ best : Best, (∀ m ∈ ms, m < pos ∧ Within low window pos (pos - m)) →
      best.Fair b low window stop pos → (bestOf b pos stop best ms).Fair b low window stop pos := by
  induction ms with
  | nil => exact fun best _ h => h
  | cons m ms ih =>
    intro best hms h
    obtain ⟨hm, hw⟩ := hms m (by simp)
    have h' := h.consider hp hm hw
    grind [bestOf]

theorem search_sound (hp : f.Placed i j)
    (hdict : ∀ {d}, dict = some d → f.attached = some d ∧ d.tables.hash.Below f.start) :
    Searcher.Sound (search f j dict) f i j fun e n => e.hash.Below n ∧ e.chain.Below n where
  step {e n pos} skipping h hn hi hl := by
    have hj : pos ≤ j := le_trans hl (Nat.sub_le _ _)
    have hstart := le_trans hp.start_le hi
    obtain ⟨hash, chain, tags, next⟩ := e
    obtain ⟨h, hc⟩ := h
    unfold search
    dsimp only
    have hb : ∀ r, (if skipping then (hash, tags) else enterSome (hasher f.tuning (rowLog f.tuning) (searchWidth f.tuning) f.salt)
        f.content (2 ^ rowLog f.tuning) pos next hash tags) = r → r.1.Below pos := by
      rintro r rfl
      split
      · exact h.mono hn
      · exact enterSome_below (h.mono hn)
    generalize hr : (if skipping then (hash, tags) else enterSome (hasher f.tuning (rowLog f.tuning) (searchWidth f.tuning)
      f.salt) f.content (2 ^ rowLog f.tuning) pos next hash tags) = r
    have hh := hb r hr
    obtain ⟨hash, tags⟩ := r
    refine ⟨⟨put_below (hh.mono (by omega)) (by omega), hc.mono (by omega)⟩, ?_⟩
    generalize hasher f.tuning (rowLog f.tuning) (searchWidth f.tuning) f.salt = h
    have hms : ∀ m ∈ (look hash tags (2 ^ rowLog f.tuning) (h.hashAt f.content pos) (f.lowest pos)
        (2 ^ min f.tuning.searchLog (rowLog f.tuning))).1, m < pos ∧ Within f.bottom f.span pos (pos - m) := by
      intro m hm
      obtain ⟨h1, h2⟩ := look_spec hh _ _ _ m hm
      exact ⟨h2, hp.within_lowest hj h1 h2⟩
    generalize look _ _ _ _ (f.lowest pos) _ = r at hms ⊢
    obtain ⟨ms, left⟩ := r
    have hbest := bestOf_fair (b := f.content) hj ms .none hms .none
    rcases dict with _ | d
    · exact hbest.1
    · obtain ⟨ha, hdh⟩ := hdict rfl
      refine (bestOf_fair hj _ _ (fun m hm => ?_) hbest).1
      obtain ⟨h1, h2⟩ := look_spec (hdh.mono hstart) _ _ _ m hm
      exact ⟨h2, hp.within_dictionary hj ha h1 h2⟩

end Row

end ZstCodec.Match
