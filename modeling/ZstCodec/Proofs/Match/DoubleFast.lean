import ZstCodec.Proofs.Match.Fast
import ZstCodec.Match.DoubleFast

/-! # The double-fast strategy explains its blocks

As for the fast strategy, with two tables. Within a segment the offsets carried along are always in reach; with
older bytes they are tested when they are used. -/

namespace ZstCodec.Match.DoubleFast

/-- What the search of a block relies on: positions from `bottom` on are in reach. -/
structure Scan.Valid (s : Scan) (bottom low window : Nat) : Prop where
  limit : s.limit = s.stop - hashReach
  reach : ∀ {m p : Nat}, bottom ≤ m → m < p → p ≤ s.stop → Within low window p (p - m)

structure TablesBelow (long short : Table) (n : Nat) : Prop where
  long : long.Below n
  short : short.Below n

theorem TablesBelow.mono {long short : Table} (h : TablesBelow long short n) (hm : n ≤ m) :
    TablesBelow long short m := ⟨h.long.mono hm, h.short.mono hm⟩

/-! ### Searching within a segment -/

/-- A search from `ip` on has found that the bytes at `pos` and `source` agree. -/
structure Found (s : Scan) (bottom rep1 ip : Nat) (long short : Table) (repeated : Bool) (pos entered source known : Nat) :
    Prop where
  le_pos : ip ≤ pos
  pos_le : pos ≤ s.limit
  entered_le : entered ≤ pos
  known_ge : 4 ≤ known
  known_le : known ≤ 8
  below : TablesBelow long short (pos + 4)
  agree : Agree s.b pos source known
  again : repeated = true → 0 < rep1 ∧ ip < pos ∧ source = pos - rep1
  fresh : repeated = false → bottom ≤ source ∧ source < pos

structure Hit.Good (s : Scan) (rep1 ip : Nat) (h : Hit) : Prop where
  below : TablesBelow h.long h.short s.stop
  found : h.found = true → Found s s.low rep1 ip h.long h.short h.repeated h.pos h.entered h.source h.known

namespace Hit.Good

variable {s : Scan} {rep1 ip ip' : Nat} {long short : Table} {h : Hit} {repeated : Bool} {pos entered source known : Nat}

theorem missed (h : TablesBelow long short s.stop) : Hit.Good s rep1 ip ⟨long, short, false, false, 0, 0, 0, 0⟩ := ⟨h, nofun⟩

theorem hit (hb : TablesBelow long short s.stop) (hf : Found s s.low rep1 ip long short repeated pos entered source known) :
    Hit.Good s rep1 ip ⟨long, short, true, repeated, pos, entered, source, known⟩ :=
  ⟨hb, fun _ => hf⟩

theorem mono (hg : h.Good s rep1 ip') (hip : ip ≤ ip') : h.Good s rep1 ip := by
  refine ⟨hg.below, fun hf => ?_⟩
  have hf := hg.found hf
  exact { hf with
    le_pos := le_trans hip hf.le_pos
    again := fun hr => ⟨(hf.again hr).1, lt_of_le_of_lt hip (hf.again hr).2.1, (hf.again hr).2.2⟩ }

end Hit.Good

theorem search_good (hs : s.limit = s.stop - hashReach) (fuel : Nat)
    (hb : TablesBelow long short ip) (hidx : idxl < ip) (h1 : ip1 = ip + step) (hstep : 0 < step) (hlim : ip1 ≤ s.limit) :
    (search s rep1 long short ip ip1 hl idxl step nextStep fuel).Good s rep1 ip := by
  have hreach : hashReach = 8 := rfl
  induction fuel generalizing long short ip ip1 hl idxl step nextStep with
  | zero => exact .missed (hb.mono (by omega))
  | succ fuel ih =>
    have hb0 : TablesBelow (long.set hl ip) (short.set (s.short.hashAt s.b ip) ip) (ip + 1) :=
      ⟨(hb.long.mono (by omega)).set (by omega), (hb.short.mono (by omega)).set (by omega)⟩
    -- the place ahead is entered only if it lies within any match that starts here
    have hb1 : (if step < 4 then (long.set hl ip).set (s.long.hashAt s.b ip1) ip1 else long.set hl ip).Below
        (min (ip + 4) (ip1 + 1)) := by
      split
      · exact (hb0.long.mono (by omega)).set (by omega)
      · exact hb0.long.mono (by omega)
    have hfresh {pos source known : Nat} (hp : pos = ip ∨ pos = ip1) (hk : 4 ≤ known ∧ known ≤ 8) (ha : Agree s.b source pos known)
        (hlow : s.low ≤ source) (hlt : source < pos) : Hit.Good s rep1 ip ⟨_, _, true, false, pos, ip, source, known⟩ :=
      .hit ⟨hb1.mono (by omega), hb0.short.mono (by omega)⟩
        ⟨by omega, by omega, by omega, hk.1, hk.2, ⟨hb1.mono (by omega), hb0.short.mono (by omega)⟩, ha.symm, nofun, fun _ => ⟨hlow, hlt⟩⟩
    rw [search]
    dsimp only
    split
    · rename_i hr
      simp only [Bool.and_eq_true, decide_eq_true_eq, same4_iff] at hr
      exact .hit (hb0.mono (by omega))
        ⟨by omega, by omega, by omega, by omega, by omega, hb0.mono (by omega), hr.2, fun _ => ⟨hr.1, by omega, rfl⟩, nofun⟩
    split
    · rename_i hm
      simp only [Bool.and_eq_true, decide_eq_true_eq, same8_iff] at hm
      exact hfresh (.inl rfl) (by decide) hm.2 (by omega) hidx
    split
    · rename_i hm
      simp only [Bool.and_eq_true, decide_eq_true_eq, same4_iff] at hm
      split
      · rename_i hm'
        simp only [Bool.and_eq_true, decide_eq_true_eq, same8_iff] at hm'
        exact hfresh (.inr rfl) (by decide) hm'.2 (by omega) (lt_of_lt_of_le (hb0.long (s.long.hashAt s.b ip1)) (by omega))
      · exact hfresh (.inl rfl) (by decide) hm.2 (by omega) (hb.short (s.short.hashAt s.b ip))
    have hstep' : 0 < if nextStep ≤ ip1 then step + 1 else step := by split <;> omega
    generalize (if nextStep ≤ ip1 then step + 1 else step) = step' at hstep' ⊢
    split
    · exact (ih (hb0.mono (by omega))
        (lt_of_lt_of_le (hb0.long (s.long.hashAt s.b ip1)) (by omega)) rfl hstep' (by omega)).mono (by omega)
    · exact .missed (hb0.mono (by omega))

theorem searchFrom_good (rep1 : Nat) (hs : s.limit = s.stop - hashReach)
    (hb : TablesBelow long short ip) (hb' : TablesBelow long short s.stop) :
    (searchFrom s rep1 long short ip).Good s rep1 ip := by
  unfold searchFrom
  split
  · exact .missed hb'
  · exact search_good hs _ hb (hb.long _) rfl (by omega) (by omega)

/-! ### Behind a match -/

structure Progress.Done (s : Scan) (k : Base) (p : Progress) : Prop where
  below : TablesBelow p.long p.short s.stop
  anchor_le : p.anchor ≤ s.stop
  cut : Cut s.b k p.seqs p.anchor p.rep1 p.rep2

structure Progress.Good (s : Scan) (k : Base) (R : Nat → Nat → Prop) (p : Progress) : Prop where
  below : TablesBelow p.long p.short p.pos
  below_stop : TablesBelow p.long p.short s.stop
  cursor : Cursor s.b s.stop k R p.seqs p.pos p.anchor p.rep1 p.rep2

section

variable {s : Scan} {bottom : Nat} {k : Base} {R : Nat → Nat → Prop}

theorem Progress.Good.done {p : Progress} (h : p.Good s k R) : p.Done s k :=
  ⟨h.below_stop, h.cursor.anchor_le_stop, h.cursor.cut⟩

section

variable {allowed : Nat → Nat → Bool} {long short : Table} {pos rep1 rep2 : Nat} {seqs : Array Seq} (hs : s.limit = s.stop - hashReach)
  (hR : Reaching k.low k.window R) (hallowed : ∀ {p o}, 0 < o → R p o → allowed p o = true → p ≤ s.stop → Within k.low k.window p o)
  (h1 : 0 < rep1) (hg : Progress.Good s k R ⟨long, short, pos, pos, rep1, rep2, seqs⟩)

include hs hR hallowed h1 hg

theorem repeats_good (fuel : Nat) : (repeats s allowed long short pos rep1 rep2 seqs fuel).Good s k R ∧
    pos ≤ (repeats s allowed long short pos rep1 rep2 seqs fuel).pos := by
  have hreach : hashReach = 8 := rfl
  induction fuel generalizing long short pos rep1 rep2 seqs with
  | zero => exact ⟨hg, le_rfl⟩
  | succ fuel ih =>
    rw [repeats]
    split
    · rename_i hc
      simp only [Bool.and_eq_true, decide_eq_true_eq, same4_iff] at hc
      obtain ⟨⟨⟨hpos, h2⟩, hal⟩, ha⟩ := hc
      have hw := hallowed h2 (hg.cursor.second h2) hal (by dsimp only; omega)
      have hlow := hw.low_le
      dsimp only at hlow
      have hle := agreement_le s.b (pos + 4) (pos + 4 - rep2) s.stop
      have hc := hg.cursor.takeSecond (q := pos + (agreement s.b (pos + 4) (pos + 4 - rep2) s.stop + 4)) hR h1 (by omega)
        rfl (by omega) hw (hw.onward ha s.stop)
      have hb : TablesBelow (long.set (s.long.hashAt s.b pos) pos) (short.set (s.short.hashAt s.b pos) pos)
          (pos + (agreement s.b (pos + 4) (pos + 4 - rep2) s.stop + 4)) :=
        ⟨(hg.below.long.mono (by dsimp only; omega)).set (by omega),
          (hg.below.short.mono (by dsimp only; omega)).set (by omega)⟩
      have hg' := ih h2 ⟨hb, ⟨hg.below_stop.long.set (by omega), hg.below_stop.short.set (by omega)⟩, hc⟩
      exact ⟨hg'.1, le_trans (by omega) hg'.2⟩
    · exact ⟨hg, le_rfl⟩

theorem afterMatch_good (hentered : entered + 4 ≤ pos) :
    (afterMatch s allowed long short entered pos rep1 rep2 seqs).Good s k R ∧
      pos ≤ (afterMatch s allowed long short entered pos rep1 rep2 seqs).pos := by
  have hstop := hg.cursor.anchor_le_stop
  have hb := hg.below
  have hbs := hg.below_stop
  dsimp only at hstop hb hbs
  unfold afterMatch
  split
  · exact repeats_good hs hR hallowed h1 ⟨⟨(hb.long.set (by omega)).set (by omega), (hb.short.set (by omega)).set (by omega)⟩,
        ⟨(hbs.long.set (by omega)).set (by omega), (hbs.short.set (by omega)).set (by omega)⟩, hg.cursor⟩ _
  · exact ⟨hg, le_rfl⟩

end

theorem Progress.Good.take {p : Progress} (hs : s.Valid bottom k.low k.window) (hR : Reaching k.low k.window R)
    (hg : p.Good s k R) {long short : Table}
    (hsource : bottom ≤ source) (hlt : source < hpos) (hpos_ge : p.pos ≤ hpos) (hpos_le : hpos ≤ s.limit) (hk : 4 ≤ known)
    (hk' : known ≤ 8) (ha : Agree s.b hpos source known) (hfloor : bottom ≤ floor)
    (hb : TablesBelow long short (hpos + 4)) (hbs : TablesBelow long short s.stop) :
    let back := backward s.b hpos p.anchor source floor
    let length := known + agreement s.b (hpos + known) (source + known) s.stop + back
    let stop := hpos - back + length
    Progress.Good s k R
      ⟨long, short, stop, stop, hpos - source, p.rep1, p.seqs.push ⟨hpos - back - p.anchor, hpos - source + 3, length⟩⟩ ∧
      0 < hpos - source ∧ hpos + 4 ≤ stop := by
  intro back length stop
  have hreach : hashReach = 8 := rfl
  have hlim := hs.limit
  have hanchor := hg.cursor.anchor_le
  have hback := backward_le s.b hpos p.anchor source floor
  have hle := agreement_le s.b (hpos + known) (source + known) s.stop
  have hba := (agree_backward s.b hpos p.anchor source floor).extend (by omega) (by omega) ha s.stop
  have hw := hs.reach (m := source - back) (p := hpos - back) (by omega) (by omega) (by omega)
  rw [show hpos - back - (source - back) = hpos - source by omega] at hw
  rw [show source - backward s.b hpos p.anchor source floor = hpos - back - (hpos - source) by omega] at hba
  have hc := hg.cursor.take (q := stop) hR (by omega) (by omega) rfl (by omega) (by omega) hw (hba.mono (m := length) (by omega))
  exact ⟨⟨hb.mono (by dsimp only; omega), hbs, hc⟩, by omega, by omega⟩

theorem Progress.Good.takeFirst {p : Progress} (hs : s.Valid bottom k.low k.window) (hR : Reaching k.low k.window R)
    (hg : p.Good s k R) {long short : Table} (hpos_gt : p.pos < hpos)
    (hpos_le : hpos ≤ s.limit) (hk : 4 ≤ known) (hk' : known ≤ 8) (hw : Within k.low k.window hpos p.rep1)
    (ha : Agree s.b hpos (hpos - p.rep1) known) (hb : TablesBelow long short (hpos + 4))
    (hbs : TablesBelow long short s.stop) :
    let length := known + agreement s.b (hpos + known) (hpos - p.rep1 + known) s.stop
    Progress.Good s k R
      ⟨long, short, hpos + length, hpos + length, p.rep1, p.rep2, p.seqs.push ⟨hpos - p.anchor, 1, length⟩⟩ := by
  intro length
  have hreach : hashReach = 8 := rfl
  have hlim := hs.limit
  have hanchor := hg.cursor.anchor_le
  have hle := agreement_le s.b (hpos + known) (hpos - p.rep1 + known) s.stop
  have ha' := ha.append (agree_agreement s.b (hpos + known) (hpos - p.rep1 + known) s.stop)
  have hc := hg.cursor.takeFirst (q := hpos + length) hR (by omega) (by omega) rfl (by omega) (by omega) hw ha'
  exact ⟨hb.mono (by dsimp only; omega), hbs, hc⟩

end

/-! ### Within a segment -/

theorem parseFrom_done (hs : s.Valid s.low k.low k.window) (fuel : Nat)
    (hg : p.Good s k (Within k.low k.window)) : (parseFrom s p fuel).Done s k := by
  have hR := reaching_within k.low k.window
  induction fuel generalizing p with
  | zero => exact hg.done
  | succ fuel ih =>
    obtain ⟨long, short, pos, anchor, rep1, rep2, seqs⟩ := p
    have hh := searchFrom_good rep1 hs.limit hg.below hg.below_stop
    rw [parseFrom]
    generalize searchFrom s rep1 long short pos = h at hh ⊢
    obtain ⟨long', short', found, repeated, hpos, entered, source, known⟩ := h
    cases found with
    | false => exact { hg.done with below := hh.below }
    | true =>
      have hf : Found s s.low rep1 pos long' short' repeated hpos entered source known := hh.found rfl
      have hentered := hf.entered_le
      have hlep := hf.le_pos
      have hk := hf.known_ge
      cases repeated with
      | true =>
        obtain ⟨h1, h2, rfl⟩ := hf.again rfl
        have hg' := hg.takeFirst hs hR h2 hf.pos_le hk hf.known_le ((hg.cursor.first h1).mono hlep) hf.agree hf.below
          hh.below
        exact ih (afterMatch_good hs.limit hR (fun _ h _ _ => h) h1 hg' (by omega)).1
      | false =>
        obtain ⟨h1, h2⟩ := hf.fresh rfl
        obtain ⟨hg', ho, hend⟩ := hg.take hs hR h1 h2 hlep hf.pos_le hk hf.known_le hf.agree (le_refl s.low) hf.below
          hh.below
        exact ih (afterMatch_good hs.limit hR (fun _ h _ _ => h) ho hg' (by omega)).1

/-! ### With older bytes -/

structure DictScan.Valid (d : DictScan) (s : Scan) : Prop where
  low_eq : d.low = s.low
  long_lt : ∀ k, d.long.get k / Fast.tagSize < s.start
  short_lt : ∀ k, d.short.get k / Fast.tagSize < s.start

theorem candidate_spec {hash : DictScan → Hasher}
    (hlow : s.low ≤ s.start) (hstart : s.start ≤ pos) (hidx : idx < pos)
    (hd : ∀ {d'}, d = some d' → d'.low = s.low ∧ ∀ k, (table d').get k / Fast.tagSize < s.start)
    (h : (candidate s agrees table hash d idx pos).source ≠ 0) :
    let c := candidate s agrees table hash d idx pos
    agrees c.source pos = true ∧ s.low ≤ c.source ∧ c.source < pos ∧ s.low ≤ c.floor := by
  intro c
  revert h
  unfold c candidate
  rcases d with _ | d
  · grind
  · grind

section

variable {s : Scan} {d : Option DictScan} {low window : Nat} {k : Base}

section

variable {idx pos : Nat} (hlow : s.low ≤ s.start) (hd : ∀ {d'}, d = some d' → d'.Valid s) (hstart : s.start ≤ pos) (hidx : idx < pos)

include hlow hd hstart hidx

theorem longCandidate_spec (h : (longCandidate s d idx pos).source ≠ 0) :
    let c := longCandidate s d idx pos
    Agree s.b pos c.source 8 ∧ s.low ≤ c.source ∧ c.source < pos ∧ s.low ≤ c.floor := by
  have hc := candidate_spec hlow hstart hidx (fun h => ⟨(hd h).low_eq, (hd h).long_lt⟩) h
  exact ⟨((same8_iff _ _ _).1 hc.1).symm, hc.2⟩

theorem shortCandidate_spec (h : (shortCandidate s d idx pos).source ≠ 0) :
    let c := shortCandidate s d idx pos
    Agree s.b pos c.source 4 ∧ s.low ≤ c.source ∧ c.source < pos ∧ s.low ≤ c.floor := by
  have hc := candidate_spec hlow hstart hidx (fun h => ⟨(hd h).low_eq, (hd h).short_lt⟩) h
  exact ⟨((same4_iff _ _ _).1 hc.1).symm, hc.2⟩

end

/-- Offsets that are tested when they are used. -/
theorem within_of_allowed (hs : s.Valid s.low low window) (ho : 0 < o) (h : allowed s p o = true)
    (hp : p ≤ s.stop) : Within low window p o := by
  simp only [allowed, Bool.and_eq_true, decide_eq_true_eq] at h
  have hw := hs.reach (m := p - o) (p := p) (by omega) (by omega) hp
  rwa [Nat.sub_sub_self (by omega)] at hw

theorem parseOlderFrom_done (hs : s.Valid s.low k.low k.window) (hlow : s.low ≤ s.start)
    (hd : ∀ {d'}, d = some d' → d'.Valid s) (h0 : k.saved1 = 0) (hr : Reps.Told k.reps) (fuel : Nat) (hstart : s.start ≤ p.pos)
    (hg : p.Good s k (fun _ _ => True)) : (parseOlderFrom s d p fuel).Done s k := by
  have hreach : hashReach = 8 := rfl
  have hlim := hs.limit
  have hR := reaching_any k.low k.window
  induction fuel generalizing p with
  | zero => exact hg.done
  | succ fuel ih =>
    obtain ⟨long, short, pos, anchor, rep1, rep2, seqs⟩ := p
    have hrep : 0 < rep1 := hg.cursor.cut.first_pos h0 hr
    have hb := hg.below
    have hanchor := hg.cursor.anchor_le
    dsimp only at hstart hb hanchor
    rw [parseOlderFrom]
    split
    · exact hg.done
    generalize s.long.hashAt s.b pos = hl
    generalize s.short.hashAt s.b pos = hsh
    have hb0 : TablesBelow (long.set hl pos) (short.set hsh pos) (pos + 1) :=
      ⟨(hb.long.mono (by omega)).set (by omega), (hb.short.mono (by omega)).set (by omega)⟩
    -- every match is followed by the same steps
    have hnext {long' short' : Table} {stop rep1' rep2' : Nat} {seqs' : Array Seq} (hstop : pos + 4 ≤ stop)
        (h1 : 0 < rep1')
        (hg' : Progress.Good s k (fun _ _ => True) ⟨long', short', stop, stop, rep1', rep2', seqs'⟩) :
        (parseOlderFrom s d (afterMatch s (allowed s) long' short' pos stop rep1' rep2' seqs') fuel).Done s k := by
      obtain ⟨hg'', hle⟩ := afterMatch_good hs.limit hR (fun ho _ h hp => within_of_allowed hs ho h hp) h1 hg' hstop
      exact ih (by omega) hg''
    split
    · rename_i hr
      simp only [Bool.and_eq_true, same4_iff] at hr
      have hw := within_of_allowed hs hrep hr.1 (by omega)
      have hlow' := hw.low_le
      have hg' := hg.takeFirst hs hR (Nat.lt_succ_self pos) (by omega) (by omega) (by omega) hw hr.2
        (hb0.mono (by omega)) (hb0.mono (by omega))
      grind
    by_cases hc : (longCandidate s d (long.get hl) pos).source = 0
    · simp only [hc, if_true, decide_true, Bool.true_and, ne_eq, not_true_eq_false, if_false, decide_eq_true_eq]
      by_cases hc4 : (shortCandidate s d (short.get hsh) pos).source = 0
      · rw [if_pos hc4]
        generalize (pos - anchor) / 2 ^ searchStrength = skip
        refine ih ?_ ⟨hb0.mono ?_, hb0.mono (by omega), hg.cursor.move hR ?_⟩ <;> dsimp only <;> omega
      rw [if_neg hc4]
      have hs4 := shortCandidate_spec hlow hd hstart (hb.short hsh) hc4
      generalize s.long.hashAt s.b (pos + 1) = hl3
      have hb1 : TablesBelow ((long.set hl pos).set hl3 (pos + 1)) (short.set hsh pos) (pos + 2) :=
        ⟨(hb0.long.mono (by omega)).set (by omega), hb0.short.mono (by omega)⟩
      by_cases hc3 : (longCandidate s d ((long.set hl pos).get hl3) (pos + 1)).source = 0
      · simp only [hc3, not_true_eq_false, if_false]
        obtain ⟨hg', ho, hend⟩ := hg.take hs hR hs4.2.1 hs4.2.2.1 (le_refl pos) (by omega) (by omega)
          (by omega) hs4.1 hs4.2.2.2 (hb1.mono (by omega)) (hb1.mono (by omega))
        exact hnext (by omega) ho hg'
      · simp only [hc3, not_false_eq_true, if_true]
        have hs3 := longCandidate_spec hlow hd (Nat.le_succ_of_le hstart) (hb0.long hl3) hc3
        obtain ⟨hg', ho, hend⟩ := hg.take hs hR hs3.2.1 hs3.2.2.1 (Nat.le_succ pos) (by omega) (by omega)
          (by omega) hs3.1 hs3.2.2.2 (hb1.mono (by omega)) (hb1.mono (by omega))
        exact hnext (by omega) ho hg'
    · simp only [hc, ne_eq, not_false_eq_true, if_true, decide_false, Bool.false_and, Bool.false_eq_true, if_false]
      have hs8 := longCandidate_spec hlow hd hstart (hb.long hl) hc
      obtain ⟨hg', ho, hend⟩ := hg.take hs hR hs8.2.1 hs8.2.2.1 (le_refl pos) (by omega) (by omega)
        (by omega) hs8.1 hs8.2.2.2 (hb0.mono (by omega)) (hb0.mono (by omega))
      exact hnext (by omega) ho hg'

end

/-- Parsing with older bytes, from a scan whose bytes from `bottom` on are in reach. -/
theorem parseOlderFrom_explained {f : Finder}
    (hs : s.Valid s.low low window) (hlow : s.low ≤ s.start) (hd : ∀ {d'}, d = some d' → d'.Valid s)
    (hstart : s.start ≤ i) (hi : i ≤ pos) (hstop : i ≤ s.stop) (ht : TablesBelow f.tables.hash f.tables.chain i)
    (hr : SamePair r reps) (hsettled : Reps.Settled r) (htold : Reps.Told r)
    (g : Finder) (fuel : Nat) :
    let p := parseOlderFrom s d ⟨f.tables.hash, f.tables.chain, pos, i, reps.first, reps.second, #[]⟩ fuel
    TablesBelow p.long p.short s.stop ∧
      (finish g p { reps with first := p.rep1, second := p.rep2 } s.stop).Explained s.b low window r i s.stop := by
  have hcut := Cut.start s.b low window i hr hsettled false false
  obtain ⟨hbelow, hanchor, hcut'⟩ := parseOlderFrom_done (k := ⟨low, window, r, i, 0, 0⟩) hs hlow hd rfl htold fuel
    (p := ⟨f.tables.hash, f.tables.chain, pos, i, reps.first, reps.second, #[]⟩) (le_trans hstart hi)
    ⟨ht.mono hi, ht.mono hstop, ⟨hi, hstop, hcut, fun _ => trivial, fun _ => trivial⟩⟩
  exact ⟨hbelow, hcut'.explained_plain hanchor _ reps⟩

/-! ### Blocks -/

def Passes (f : Finder) (low : Nat) (r : Reps) (i j : Nat) (p : Parsed) : Prop :=
  ∃ long short : Table, TablesBelow long short j ∧ p.finder = { f with tables := { hash := long, chain := short } } ∧
    p.Explained f.content low f.span r i j

section

variable {f : Finder} {reps r : Reps} {i j : Nat} (hi : f.start ≤ i) (hj : i ≤ j) (hsize : j ≤ f.content.size)
  (ht : TablesBelow f.tables.hash f.tables.chain i) (hr : SamePair r reps) (hsettled : Reps.Settled r)

include hi hj hsize ht hr hsettled

theorem parseSegment_passes (hlow : low ≤ f.start) : Passes f low r i j (parseSegment f reps i j) := by
  unfold parseSegment
  dsimp only
  generalize hpos : (if i = f.lowestInSegment j then i + 1 else i) = pos
  have hpos' : i ≤ pos ∧ pos ≤ i + 1 := by split at hpos <;> omega
  obtain ⟨hcut, hcursor⟩ := cut_setAside f j pos hr hsettled hpos'.1 hj hlow
  dsimp only at hcut hcursor
  rw [← Finder.lowestInSegment] at hcut hcursor
  generalize setAside reps.first _ = aside1 at hcut hcursor ⊢
  generalize setAside reps.second _ = aside2 at hcut hcursor ⊢
  obtain ⟨rep1, saved1⟩ := aside1
  obtain ⟨rep2, saved2⟩ := aside2
  generalize hs : scanOf f (f.lowestInSegment j) (f.lowestInSegment j) j = s
  have hvalid : s.Valid s.low low f.span := by
    subst hs
    refine ⟨rfl, fun {m p} hm hmp hp => ?_⟩
    exact (Finder.within_of_le hsize hp hm hmp).weaken hlow le_rfl
  have hb : s.b = f.content := by subst hs; rfl
  have hstop : s.stop = j := by subst hs; rfl
  rw [← hb, ← hstop] at hcursor
  have hdone : (parseFrom s ⟨f.tables.hash, f.tables.chain, pos, i, rep1, rep2, #[]⟩ (j - i)).Done s
      ⟨low, f.span, r, i, saved1, saved2⟩ := by
    rcases eq_or_lt_of_le hj with rfl | hlt
    · rw [Nat.sub_self]
      exact ⟨ht.mono (by omega), le_of_eq hstop.symm, by rwa [hb]⟩
    · exact parseFrom_done hvalid _ ⟨ht.mono hpos'.1, ht.mono (by omega), hcursor (by rw [hb]; omega)⟩
  obtain ⟨hbelow, hanchor, hcut'⟩ := hdone
  rw [hstop] at hbelow hanchor
  rw [hb] at hcut'
  exact ⟨_, _, hbelow, rfl, hcut'.explained hanchor _ reps⟩

theorem parseOlder_passes (hlow : f.low ≤ f.start) (htold : Reps.Told r) : Passes f f.low r i j (parseOlder f reps i j) := by
  unfold parseOlder
  dsimp only
  split
  · simp_all [parseSegment_passes]
  rename_i hne
  have hstart : max f.start (f.lowest j) = f.start := by omega
  rw [hstart] at hne ⊢
  have hs : (scanOf f (f.lowest j) f.start j).Valid (f.lowest j) f.low f.span :=
    ⟨rfl, fun hm hmp hp => Finder.within_of_le hsize hp hm hmp⟩
  obtain ⟨hb, hx⟩ := parseOlderFrom_explained (d := none) hs (by dsimp only [scanOf]; omega) nofun hi (le_refl i) hj ht
    hr hsettled htold { f with tables := {} } (j - i)
  exact ⟨_, _, hb, rfl, hx⟩

theorem parseDict_passes (hd : f.dictEnd ≠ 0) (hlow : d.low ≤ f.start)
    (hlong : ∀ k, d.tables.hash.get k / Fast.tagSize < f.start) (hshort : ∀ k, d.tables.chain.get k / Fast.tagSize < f.start)
    (htold : Reps.Told r) : Passes f d.low r i j (parseDict f d reps i j) := by
  have hseg : f.lowestInSegment j = f.start := by rw [Finder.lowestInSegment, Finder.within, if_pos hd]
  unfold parseDict
  rw [hseg]
  have hs : (scanOf f d.low f.start j).Valid d.low d.low f.span := by
    refine ⟨rfl, fun {m p} hm hmp hp => ⟨by omega, by omega, ?_⟩⟩
    rw [Finder.span, if_neg hd]
    dsimp only [scanOf] at hp
    omega
  have hpos : i ≤ if i = f.start ∧ d.stop = d.low then i + 1 else i := by split <;> omega
  obtain ⟨hb, hx⟩ := parseOlderFrom_explained (d := some ⟨d.tables.hash, d.tables.chain, .ofWidth 8 (d.tuning.hashLog + 8) 0,
      .ofWidth (Fast.hashWidth f.tuning) (d.tuning.chainLog + 8) 0, d.low⟩) hs hlow
    (fun h => by cases h; exact ⟨rfl, hlong, hshort⟩) hi hpos hj ht hr hsettled htold { f with tables := {} } (j - i)
  exact ⟨_, _, hb, rfl, hx⟩

end

theorem parse_passes (hp : f.Placed i j)
    (ht : TablesBelow f.tables.hash f.tables.chain i)
    (hd : ∀ {d}, f.attached = some d →
      ∀ k, d.tables.hash.get k / Fast.tagSize < f.start ∧ d.tables.chain.get k / Fast.tagSize < f.start)
    (hr : f.Told i r reps) : Passes f f.bottom r i j (parse f reps i j) := by
  obtain ha | ⟨d, ha⟩ := Option.eq_none_or_eq_some f.attached
  · rw [Finder.bottom_of_none ha] at ⊢
    by_cases ho : f.low < f.start
    · have e : parse f reps i j = parseOlder f reps i j := by simp [parse, Finder.older, ho]
      rw [e]
      exact parseOlder_passes hp.start_le hp.le hp.le_size ht hr.same hr.settled hp.low_le (hr.told (by simp [Finder.older, ho]))
    grind [parse, Finder.older, parseSegment_passes, Finder.Placed.start_le, Finder.Placed.le, Finder.Placed.le_size, Finder.Told.same, Finder.Told.settled, Finder.Placed.low_le]
  · obtain ⟨-, hlow, hend, heq⟩ := hp.attached ha
    have e : parse f reps i j = parseDict f d reps i j := by simp [parse, Finder.older, heq, ha]
    rw [Finder.bottom_of_some ha] at ⊢
    rw [e]
    exact parseDict_passes hp.start_le hp.le hp.le_size ht hr.same hr.settled hend hlow (fun k => (hd ha k).1) (fun k => (hd ha k).2)
      (hr.told (by simp [Finder.older, heq, ha]))

end ZstCodec.Match.DoubleFast
