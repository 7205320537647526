import ZstCodec.Proofs.Match.Explains
import ZstCodec.Match.Fast

/-! # The fast strategy explains its blocks

The table holds only positions that have been passed. What a search finds agrees with its place, lies before it and is
in reach, so every sequence fits, and the offsets carried along are those that a reader remembers. -/

namespace ZstCodec.Match.Fast

variable {seqs : Array Seq} {d : DictScan} {f : Finder} {hpos j rep2 : Nat} {p : Progress} {r reps : Reps}

/-- What the search of a block relies on: positions from `low` on are in reach. -/
structure Scan.Valid (s : Scan) (low window : Nat) : Prop where
  limit : s.limit = s.stop - hashReach
  low_le : s.low ≤ s.start
  reach : ∀ {m p : Nat}, s.low ≤ m → m < p → p ≤ s.stop → Within low window p (p - m)

/-! ### Searching -/

/-- How far ahead a search looks for a repetition. -/
def Scan.lead (s : Scan) : Nat := if s.older = .dictionary then 1 else 2

/-- A search from `ip` on has found that `pos` and `source` agree. -/
structure Found (s : Scan) (rep1 ip : Nat) (t : Table) (repeated : Bool) (pos entered source : Nat) : Prop where
  le_pos : ip ≤ pos
  pos_le : pos ≤ s.limit
  entered_le : entered ≤ pos
  below : t.Below (pos + 4)
  agree : Agree s.b pos source 4
  again : repeated = true → 0 < rep1 ∧ ip + s.lead ≤ pos ∧ source = pos - rep1
  fresh : repeated = false → s.low ≤ source ∧ source < pos

/-- The outcome of a search from `ip` on can be relied on. -/
structure Hit.Good (s : Scan) (rep1 ip : Nat) (h : Hit) : Prop where
  below : h.table.Below s.stop
  found : h.found = true → Found s rep1 ip h.table h.repeated h.pos h.entered h.source
  near : h.near = true → h.ahead < h.pos + 4

namespace Hit.Good

variable {s : Scan} {rep1 ip ip' : Nat} {t : Table} {h : Hit} {repeated near : Bool} {pos entered source ahead hash : Nat}

theorem missed (h : t.Below s.stop) : Hit.Good s rep1 ip (.missed t) := ⟨h, nofun, nofun⟩

theorem hit (ht : t.Below s.stop) (hf : Found s rep1 ip t repeated pos entered source) (hn : near = true → ahead < pos + 4) :
    Hit.Good s rep1 ip ⟨t, true, repeated, pos, entered, source, ahead, hash, near⟩ :=
  ⟨ht, fun _ => hf, hn⟩

theorem mono (hg : h.Good s rep1 ip') (hip : ip ≤ ip') : h.Good s rep1 ip := by
  refine { hg with found := fun hf => ?_ }
  have hf := hg.found hf
  exact { hf with
    le_pos := le_trans hip hf.le_pos
    again := fun hr => ⟨(hf.again hr).1, by have := (hf.again hr).2.1; omega, (hf.again hr).2.2⟩ }

end Hit.Good

theorem Scan.of_matches {s : Scan} (h : s.matches idx pos = true) :
    s.low ≤ idx ∧ Agree s.b pos idx 4 := by
  simp only [Scan.matches, Bool.and_eq_true, decide_eq_true_eq, same4_iff] at h
  exact ⟨h.1, h.2.symm⟩

theorem search_good (hs : s.limit ≤ s.stop)
    (hlead : s.lead = 2) (fuel : Nat) (ht : t.Below ip0) (hidx : idx < ip0) (h1 : ip1 = ip0 + 1) (h2 : ip0 + 2 ≤ ip2)
    (hstep : ip2 ≤ ip0 + step) (h3 : ip3 = ip2 + 1) (hlim : ip3 < s.limit) :
    (search s rep1 t ip0 ip1 ip2 ip3 hash0 hash1 idx step nextStep fuel).Good s rep1 ip0 := by
  induction fuel generalizing t ip0 ip1 ip2 ip3 hash0 hash1 idx step nextStep with
  | zero => exact .missed (ht.mono (by omega))
  | succ fuel ih =>
    have ht0 : (t.set hash0 ip0).Below ip1 := (ht.mono (by omega)).set (by omega)
    have ht1 : ((t.set hash0 ip0).set hash1 ip1).Below (ip1 + 1) := (ht0.mono (by omega)).set (by omega)
    rw [search]
    by_cases hr : (decide (rep1 > 0) && s.allows ip2 rep1 && same4 s.b ip2 (ip2 - rep1)) = true
    · rw [if_pos hr]
      simp only [Bool.and_eq_true, decide_eq_true_eq, same4_iff] at hr
      exact .hit (ht0.mono (by omega))
        ⟨by omega, by omega, by omega, ht0.mono (by omega), hr.2, fun _ => ⟨hr.1.1, by omega, rfl⟩, nofun⟩ (by omega)
    rw [if_neg hr]
    by_cases hm : s.matches idx ip0 = true
    · rw [if_pos hm]
      have hm := Scan.of_matches hm
      exact .hit (ht0.mono (by omega))
        ⟨by omega, by omega, by omega, ht0.mono (by omega), hm.2, nofun, fun _ => ⟨hm.1, hidx⟩⟩ (by omega)
    rw [if_neg hm]
    by_cases hm' : s.matches ((t.set hash0 ip0).get hash1) ip1 = true
    · rw [if_pos hm']
      have hm' := Scan.of_matches hm'
      exact .hit (ht1.mono (by omega))
        ⟨by omega, by omega, by omega, ht1.mono (by omega), hm'.2, nofun, fun _ => ⟨hm'.1, ht0 _⟩⟩ (by simp only [decide_eq_true_eq]; omega)
    rw [if_neg hm']
    by_cases hl : ip3 + step < s.limit
    · rw [if_pos hl]
      refine (ih (ht1.mono (by omega)) (lt_of_lt_of_le (ht1 _) (by omega)) h3 (by omega) ?_ (by omega) hl).mono (by omega)
      split <;> omega
    · rw [if_neg hl]
      exact .missed (ht1.mono (by omega))

theorem searchFrom_good (hs : s.limit ≤ s.stop) (hlead : s.lead = 2) (hstep : 2 ≤ s.stepSize)
    (ht : t.Below ip) (ht' : t.Below s.stop) (rep1 : Nat) : (searchFrom s rep1 t ip).Good s rep1 ip := by
  unfold searchFrom
  dsimp only
  split
  · exact .missed ht'
  · exact search_good hs hlead _ ht (ht _) rfl (by omega) (by omega) rfl (by omega)

/-- The tables of an attached dictionary hold positions before the segment. -/
def DictScan.Valid (d : DictScan) (s : Scan) : Prop := ∀ k, d.table.get k / tagSize < s.start

theorem searchDict_good (ip0 ip1 hash0 dictHash nextStep fuel : Nat)
    (hs : s.limit ≤ s.stop) (hlead : s.lead = 1) (hlow : s.low ≤ s.start) (hd : d.Valid s) (hrep : 0 < rep1) (ht : t.Below ip0) (hidx : idx < ip0)
    (hstart : s.start ≤ ip0) (h1 : ip0 < ip1) (hlim : ip1 ≤ s.limit) (hstep : 0 < step) (hentry : dictEntry / tagSize < s.start) :
    (searchDict s d rep1 t ip0 ip1 hash0 dictEntry dictHash idx step nextStep fuel).Good s rep1 ip0 := by
  induction fuel generalizing t ip0 ip1 hash0 dictEntry dictHash idx step nextStep with
  | zero => exact .missed (ht.mono (by omega))
  | succ fuel ih =>
    have ht0 : (t.set hash0 ip0).Below (ip0 + 1) := (ht.mono (by omega)).set (by omega)
    rw [searchDict]
    dsimp only
    by_cases hr : (s.clears (ip0 + 1) rep1 && same4 s.b (ip0 + 1) (ip0 + 1 - rep1)) = true
    · rw [if_pos hr]
      simp only [Bool.and_eq_true, same4_iff] at hr
      exact .hit (ht0.mono (by omega))
        ⟨by omega, by omega, by omega, ht0.mono (by omega), hr.2, fun _ => ⟨hrep, by omega, rfl⟩, nofun⟩ nofun
    rw [if_neg hr]
    split
    · rename_i hm
      simp only [Bool.and_eq_true, decide_eq_true_eq, same4_iff] at hm
      obtain ⟨⟨⟨-, hm1⟩, -⟩, hm2⟩ := hm
      exact .hit (ht0.mono (by omega))
        ⟨le_rfl, by omega, le_rfl, ht0.mono (by omega), hm2.symm, nofun, fun _ => ⟨le_of_lt hm1, by omega⟩⟩ nofun
    split
    · rename_i hm
      simp only [Bool.and_eq_true, decide_eq_true_eq, same4_iff] at hm
      exact .hit (ht0.mono (by omega))
        ⟨le_rfl, by omega, le_rfl, ht0.mono (by omega), hm.2.symm, nofun, fun _ => ⟨by omega, hidx⟩⟩ nofun
    generalize (if nextStep ≤ ip1 then nextStep + 2 ^ searchStrength else nextStep) = nextStep'
    have hstep' : 0 < if nextStep ≤ ip1 then step + 1 else step := by split <;> omega
    generalize (if nextStep ≤ ip1 then step + 1 else step) = step' at hstep' ⊢
    split
    · exact .missed (ht0.mono (by omega))
    · exact (ih ip1 (ip1 + step') (s.hasher.hashAt s.b ip1) (d.hasher.hashAt s.b ip1) nextStep' (ht0.mono (by omega))
        (lt_of_lt_of_le (ht0 (s.hasher.hashAt s.b ip1)) h1) (by omega) (by omega) (by omega) hstep'
        (hd (d.hasher.hashAt s.b ip1 / tagSize))).mono (by omega)

theorem searchDictFrom_good (hs : s.limit ≤ s.stop) (hlead : s.lead = 1) (hlow : s.low ≤ s.start)
    (hstep : 0 < s.stepSize) (hd : d.Valid s) (hrep : 0 < rep1) (ht : t.Below pos) (ht' : t.Below s.stop) (hstart : s.start ≤ pos) :
    (searchDictFrom s d rep1 t pos).Good s rep1 pos := by
  unfold searchDictFrom
  dsimp only
  split
  · exact .missed ht'
  · exact searchDict_good _ _ _ _ _ _ hs hlead hlow hd hrep ht (ht _) hstart (by omega) (by omega) hstep (hd _)

/-! ### Taking a match -/

/-- What has been taken is explained. -/
structure Progress.Done (s : Scan) (k : Base) (p : Progress) : Prop where
  below_stop : p.table.Below s.stop
  anchor_le_stop : p.anchor ≤ s.stop
  cut : Cut s.b k p.seqs p.anchor p.rep1 p.rep2

/-- A search may start from here. -/
structure Progress.Good (s : Scan) (k : Base) (p : Progress) : Prop where
  below_stop : p.table.Below s.stop
  below : p.table.Below p.pos
  cursor : Cursor s.b s.stop k (Within k.low k.window) p.seqs p.pos p.anchor p.rep1 p.rep2

theorem Progress.Good.done (h : p.Good s k) : p.Done s k :=
  ⟨h.below_stop, h.cursor.anchor_le_stop, h.cursor.cut⟩

section

variable {s : Scan} {k : Base} (hs : s.Valid k.low k.window)

include hs

/-- The second last offset repeats directly behind a match. -/
theorem Progress.Good.again {pos rep1 : Nat}
    (hg : Progress.Good s k ⟨t, pos, pos, rep1, rep2, seqs⟩) (h1 : 0 < rep1) (h2 : 0 < rep2)
    (hpos : pos ≤ s.limit) (ha : Agree s.b pos (pos - rep2) 4) (l : Nat) :
    let n := agreement s.b (pos + 4) (pos + 4 - rep2) s.stop + 4
    Progress.Good s k ⟨t.set l pos, pos + n, pos + n, rep2, rep1, seqs.push ⟨0, 1, n⟩⟩ := by
  have hw := hg.cursor.second h2
  have hlow := hw.low_le
  have hlim := hs.limit
  dsimp only at hlow
  have hreach : hashReach = 8 := rfl
  have hle := agreement_le s.b (pos + 4) (pos + 4 - rep2) s.stop
  refine ⟨hg.below_stop.set (by omega), (hg.below.mono (by dsimp only; omega)).set (by dsimp only; omega), ?_⟩
  exact hg.cursor.takeSecond (reaching_within _ _) h1 (by omega) rfl (by dsimp only; omega) hw (hw.onward ha s.stop)

theorem repeats_good (fuel : Nat) (h1 : 0 < rep1)
    (hg : Progress.Good s k ⟨t, pos, pos, rep1, rep2, seqs⟩) :
    (repeats s t pos rep1 rep2 seqs fuel).Good s k ∧ pos ≤ (repeats s t pos rep1 rep2 seqs fuel).pos := by
  induction fuel generalizing t pos rep1 rep2 seqs with
  | zero => exact ⟨hg, le_rfl⟩
  | succ fuel ih =>
    rw [repeats]
    split
    · rename_i hc
      simp only [Bool.and_eq_true, decide_eq_true_eq, same4_iff] at hc
      obtain ⟨⟨⟨hpos, h2⟩, -⟩, ha⟩ := hc
      obtain ⟨hg', hle⟩ := ih h2 (hg.again hs h1 h2 hpos ha _)
      exact ⟨hg', le_trans (by omega) hle⟩
    · exact ⟨hg, le_rfl⟩

omit hs in
theorem agree_back (repeated : Bool) (pos anchor source : Nat) :
    Agree s.b (pos - s.back repeated pos anchor source) (source - s.back repeated pos anchor source) (s.back repeated pos anchor source) := by
  unfold Scan.back
  cases repeated with
  | true =>
    simp only [if_true]
    split
    · rename_i h
      intro k hk
      simp_all
    · exact .nil s.b _ _
  | false => exact agree_backward _ _ _ _ _

theorem back_le (repeated : Bool) (pos anchor : Nat) (hsource : repeated = false → s.low ≤ source) :
    if repeated then s.back repeated pos anchor source < s.lead
    else s.back repeated pos anchor source ≤ pos - anchor ∧ s.low + s.back repeated pos anchor source ≤ source := by
  have hlow := hs.low_le
  unfold Scan.back Scan.lead
  cases repeated with
  | true => grind
  | false => grind [backward_le]

theorem Found.take (hg : p.Good s k)
    (hf : Found s p.rep1 p.pos t repeated hpos entered source) (ht : t.Below s.stop) :
    let back := s.back repeated hpos p.anchor source
    let n := 4 + agreement s.b (hpos + 4) (source + 4) s.stop + back
    let stop := hpos - back + n
    let rep1 := if repeated then p.rep1 else hpos - source
    Progress.Good s k
      ⟨t, stop, stop, rep1, if repeated then p.rep2 else p.rep1,
        p.seqs.push ⟨hpos - back - p.anchor, if repeated then 1 else hpos - source + 3, n⟩⟩ ∧
      0 < rep1 ∧ hpos + 4 ≤ stop := by
  have hb := agree_back (s := s) repeated hpos p.anchor source
  have hback := back_le hs repeated hpos p.anchor fun hr => (hf.fresh hr).1
  generalize s.back repeated hpos p.anchor source = back at hb hback ⊢
  dsimp only
  rw [show 4 + agreement s.b (hpos + 4) (source + 4) s.stop + back = back + 4 + agreement s.b (hpos + 4) (source + 4) s.stop by omega]
  have hlim := hs.limit
  have hreach : hashReach = 8 := rfl
  have hpos_le := hf.pos_le
  have hle_pos := hf.le_pos
  have hanchor := hg.cursor.anchor_le
  have hle := agreement_le s.b (hpos + 4) (source + 4) s.stop
  have hR := reaching_within k.low k.window
  cases repeated with
  | true =>
    obtain ⟨h1, h2, hsrc⟩ := hf.again rfl
    have hw := hg.cursor.first h1
    have hlow := hw.low_le
    simp only [if_true] at hback
    have ha := hb.extend (by omega) (by omega) hf.agree s.stop
    rw [show source - back = hpos - back - p.rep1 by omega] at ha
    exact ⟨⟨ht, hf.below.mono (by dsimp only; omega), hg.cursor.takeFirst hR (by omega) (by omega) rfl (by dsimp only; omega)
      (by dsimp only; omega) (hw.mono (by omega)) ha⟩, h1, by omega⟩
  | false =>
    obtain ⟨h1, h2⟩ := hf.fresh rfl
    simp only [Bool.false_eq_true, if_false] at hback
    have ha := hb.extend (by omega) (by omega) hf.agree s.stop
    have hw := hs.reach (m := source - back) (p := hpos - back) (by omega) (by omega) (by omega)
    rw [show hpos - back - (source - back) = hpos - source by omega] at hw
    rw [show source - back = hpos - back - (hpos - source) by omega] at ha
    exact ⟨⟨ht, hf.below.mono (by dsimp only; omega), hg.cursor.take hR (by omega) (by omega) rfl (by dsimp only; omega)
      (by dsimp only; omega) hw ha⟩, by show 0 < hpos - source; omega, by omega⟩

omit hs

theorem enterMatch_below (ht : t.Below n) (he : entered + 2 < n) (hp : pos ≤ n)
    (hpos : 0 < pos) : (enterMatch s t entered pos).Below n := by
  exact (ht.set he).set (by omega)

/-- Entering places of a match that lies behind `pos` changes nothing. -/
theorem Progress.Good.enter {pos rep1 : Nat}
    (hg : Progress.Good s k ⟨t, pos, pos, rep1, rep2, seqs⟩) (entered : Nat)
    (he : entered + 4 ≤ pos) :
    Progress.Good s k ⟨enterMatch s t entered pos, pos, pos, rep1, rep2, seqs⟩ :=
  { hg with
    below := enterMatch_below hg.below (by dsimp only; omega) le_rfl (by omega)
    below_stop := by
      have := hg.cursor.anchor_le_stop
      dsimp only at this
      exact enterMatch_below hg.below_stop (by omega) this (by omega) }

/-- A place that has been passed may be entered. -/
theorem Progress.Good.enterAhead {t : Table} {pos rep1 : Nat} (hg : Progress.Good s k ⟨t, pos, pos, rep1, rep2, seqs⟩) {c : Prop} [Decidable c]
    {v : Nat} (hv : c → v < pos) (l : Nat) : Progress.Good s k ⟨if c then t.set l v else t, pos, pos, rep1, rep2, seqs⟩ := by
  split
  · rename_i hc
    exact { hg with
      below := hg.below.set (hv hc)
      below_stop := hg.below_stop.set (lt_of_lt_of_le (hv hc) hg.cursor.anchor_le_stop) }
  · exact hg

theorem parseFrom_done (hs : s.Valid k.low k.window)
    (hfind : ∀ {p : Progress}, start ≤ p.pos → p.Good s k → (find p.rep1 p.table p.pos).Good s p.rep1 p.pos) (fuel : Nat) (hstart : start ≤ p.pos)
    (hg : p.Good s k) : (parseFrom s find p fuel).Done s k := by
  induction fuel generalizing p with
  | zero => exact hg.done
  | succ fuel ih =>
    have hh := hfind hstart hg
    obtain ⟨t, pos, anchor, rep1, rep2, seqs⟩ := p
    rw [parseFrom]
    dsimp only at hh hstart ⊢
    generalize find rep1 t pos = h at hh ⊢
    obtain ⟨t', found, repeated, hpos, entered, source, ahead, aheadHash, near⟩ := h
    cases found with
    | false => exact { hg.done with below_stop := hh.below }
    | true =>
      have hf := hh.found rfl
      obtain ⟨hg', h1, hend⟩ := hf.take hs hg hh.below
      have hentered := hf.entered_le
      have hle := hf.le_pos
      have hnear := hh.near
      dsimp only at hentered hle hnear hend h1 hg' ⊢
      rw [if_neg (by simp)]
      generalize hpos - s.back repeated hpos anchor source + (4 + agreement s.b (hpos + 4) (source + 4) s.stop + s.back repeated hpos anchor source) =
        stop at hg' hend ⊢
      have hg'' := hg'.enterAhead (c := s.enters near ahead stop = true) (v := ahead) (fun h => by unfold Scan.enters at h; grind) aheadHash
      split
      · obtain ⟨hg₁, hle₁⟩ := repeats_good hs (s.stop - stop) h1 (hg''.enter entered (by omega))
        exact ih (by omega) hg₁
      · exact ih (by dsimp only; omega) hg''

end

/-! ### Blocks -/

def Passes (f : Finder) (low : Nat) (r : Reps) (i j : Nat) (p : Parsed) : Prop :=
  ∃ t : Table, t.Below j ∧ p.finder = { f with tables := { f.tables with hash := t } } ∧ p.Explained f.content low f.span r i j

/-- A block is parsed from `pos` on, where a search may start unless the block is empty. -/
theorem parseBlock_passes
    (hs : (scanOf f older bottom start j).Valid low f.span) (hi : i ≤ pos) (hj : i ≤ j) (ht : f.tables.hash.Below i)
    (hcut : Cut f.content ⟨low, f.span, r, i, saved1, saved2⟩ #[] i rep1 rep2)
    (hcursor : i < j → Cursor f.content j ⟨low, f.span, r, i, saved1, saved2⟩ (Within low f.span) #[] pos i rep1 rep2) (hfrom : from_ ≤ pos)
    (hfind : ∀ {p : Progress}, from_ ≤ p.pos → p.Good (scanOf f older bottom start j) ⟨low, f.span, r, i, saved1, saved2⟩ →
      (find p.rep1 p.table p.pos).Good (scanOf f older bottom start j) p.rep1 p.pos) :
    Passes f low r i j (parseBlock (scanOf f older bottom start j) find f reps i j pos rep1 rep2 saved1 saved2) := by
  have hdone : (parseFrom (scanOf f older bottom start j) find ⟨f.tables.hash, pos, i, rep1, rep2, #[]⟩ (j - i)).Done (scanOf f older bottom start j)
      ⟨low, f.span, r, i, saved1, saved2⟩ := by
    rcases eq_or_lt_of_le hj with rfl | hlt
    · rw [Nat.sub_self]
      exact ⟨ht, le_rfl, hcut⟩
    · exact parseFrom_done hs hfind _ hfrom ⟨ht.mono hj, ht.mono hi, hcursor hlt⟩
  exact ⟨_, hdone.below_stop, rfl, hdone.cut.explained hdone.anchor_le_stop _ reps⟩

section

variable {i : Nat} (hi : f.start ≤ i) (hj : i ≤ j) (hsize : j ≤ f.content.size) (ht : f.tables.hash.Below i) (hr : SamePair r reps)
  (hsettled : Reps.Settled r)

include hi hj hsize ht hr hsettled

theorem parseSegment_passes (hlow : low ≤ f.start) : Passes f low r i j (parseSegment f reps i j) := by
  unfold parseSegment
  dsimp only
  generalize hpos : (if i = f.lowestInSegment j then i + 1 else i) = pos
  have hpos' : i ≤ pos ∧ pos ≤ i + 1 := by split at hpos <;> omega
  obtain ⟨hcut, hcursor⟩ := cut_setAside f j pos hr hsettled hpos'.1 hj hlow
  dsimp only at hcut hcursor
  rw [← Finder.lowestInSegment] at hcut hcursor
  generalize setAside reps.first _ = aside1 at hcut hcursor ⊢
  generalize setAside reps.second _ = aside2 at hcut hcursor ⊢
  have hs : (scanOf f .nothing (f.lowestInSegment j) (f.lowestInSegment j) j).Valid low f.span :=
    ⟨rfl, le_rfl, fun hm hmp hp => (Finder.within_of_le hsize hp hm hmp).weaken hlow le_rfl⟩
  refine parseBlock_passes hs hpos'.1 hj ht hcut (fun hlt => hcursor (by omega)) (Nat.zero_le _) fun _ hg => ?_
  exact searchFrom_good (Nat.sub_le _ _) rfl (Nat.succ_le_succ (le_max_left _ _)) hg.below hg.below_stop _

theorem parseOlder_passes (hlow : f.low ≤ f.start) : Passes f f.low r i j (parseOlder f reps i j) := by
  unfold parseOlder
  dsimp only
  split
  · simp_all [parseSegment_passes]
  generalize hfar1 : decide (i - f.lowest j ≤ reps.first) = far1
  generalize hfar2 : decide (i - f.lowest j ≤ reps.second) = far2
  have hcut := Cut.start f.content f.low f.span i hr hsettled far1 far2
  have hreach {m p : Nat} (hm : f.lowest j ≤ m) (hmp : m < p) (hp : p ≤ j) : Within f.low f.span p (p - m) :=
    Finder.within_of_le hsize hp hm hmp
  have hw {o : Nat} (ho : 0 < o) (h : o < i - f.lowest j) : Within f.low f.span i o := by
    have h := hreach (m := i - o) (p := i) (by omega) (by omega) hj
    rwa [Nat.sub_sub_self (by omega)] at h
  have hw1 (h : 0 < (setAside reps.first far1).1) : Within f.low f.span i (setAside reps.first far1).1 := by
    obtain ⟨e, hfar⟩ := setAside_pos h
    exact hw h (by grind)
  have hw2 (h : 0 < (setAside reps.second far2).1) : Within f.low f.span i (setAside reps.second far2).1 := by
    obtain ⟨e, hfar⟩ := setAside_pos h
    exact hw h (by grind)
  have hs : (scanOf f .segment (f.lowest j) (max f.start (f.lowest j)) j).Valid f.low f.span := ⟨rfl, le_max_right _ _, hreach⟩
  refine parseBlock_passes hs le_rfl hj ht hcut (fun _ => ⟨le_rfl, hj, hcut, hw1, hw2⟩) (Nat.zero_le _) fun _ hg => ?_
  exact searchFrom_good (Nat.sub_le _ _) rfl (Nat.succ_le_succ (le_max_left _ _)) hg.below hg.below_stop _

theorem parseDict_passes {d : Attached} (hd : f.dictEnd ≠ 0) (hlow : d.low ≤ f.start) (hentry : ∀ k, d.tables.hash.get k / tagSize < f.start)
    (h1 : Within d.low f.span i r.first) (h2 : Within d.low f.span i r.second) : Passes f d.low r i j (parseDict f d reps i j) := by
  have hcut := Cut.start f.content d.low f.span i hr hsettled false false
  have htold : Reps.Told r := ⟨h1.pos, h2.pos⟩
  rw [hr.first] at h1
  rw [hr.second] at h2
  unfold parseDict
  dsimp only
  generalize hpos : (if i = f.start ∧ d.stop = d.low then i + 1 else i) = pos
  have hpos' : i ≤ pos := by split at hpos <;> omega
  have hs : (scanOf f .dictionary d.low f.start j).Valid d.low f.span := by
    refine ⟨rfl, hlow, fun {m p} hm hmp hp => ⟨by omega, ?_, ?_⟩⟩
    · change d.low ≤ m at hm
      omega
    · rw [Finder.span, if_neg hd]
      change p ≤ j at hp
      omega
  refine parseBlock_passes hs hpos' hj ht hcut (fun _ => ⟨hpos', hj, hcut, fun _ => h1.mono hpos', fun _ => h2.mono hpos'⟩) (hi.trans hpos')
    fun hstart hg => ?_
  exact searchDictFrom_good (Nat.sub_le _ _) rfl hlow (le_max_left 1 _) hentry (hg.cursor.cut.first_pos rfl htold) hg.below hg.below_stop hstart

end

theorem parse_passes (hp : f.Placed i j)
    (ht : f.tables.hash.Below i) (hd : ∀ {d}, f.attached = some d → ∀ k, d.tables.hash.get k / tagSize < f.start)
    (hr : f.Told i r reps) : Passes f f.bottom r i j (parse f reps i j) := by
  obtain ha | ⟨d, ha⟩ := Option.eq_none_or_eq_some f.attached
  · rw [Finder.bottom_of_none ha] at ⊢
    by_cases ho : f.low < f.start
    · grind [parse, Finder.older, parseOlder_passes, Finder.Placed.start_le, Finder.Placed.le, Finder.Placed.le_size, Finder.Told.same, Finder.Told.settled]
    grind [parse, Finder.older, parseSegment_passes, Finder.Placed.start_le, Finder.Placed.le, Finder.Placed.le_size, Finder.Told.same, Finder.Told.settled, Finder.Placed.low_le]
  · obtain ⟨-, hlow, hend, heq⟩ := hp.attached ha
    have hw := hr.within (by rw [ha]; rfl)
    have e : parse f reps i j = parseDict f d reps i j := by simp [parse, Finder.older, heq, ha]
    rw [Finder.bottom_of_some ha] at hw ⊢
    rw [e]
    exact parseDict_passes hp.start_le hp.le hp.le_size ht hr.same hr.settled hend hlow (hd ha) hw.1 hw.2.1

end ZstCodec.Match.Fast
