import ZstCodec.Proofs.Match.Explains
import ZstCodec.Match.LongDistance

/-! # Long matches are matches

What the search over long distances gives is a run of sequences, each of which names earlier equal bytes. A cursor into
such a run stands at a position of the content, and moves along with it. -/

namespace ZstCodec.Match

variable {a : Ahead} {i n : Nat}

/-- One long match, behind the literals from `p` on. -/
structure LongFits (b : ByteArray) (low window p : Nat) (s : LongSeq) : Prop where
  least : 3 ≤ s.length
  within : Within low window (p + s.literals) s.offset
  agree : Agree b (p + s.literals) (p + s.literals - s.offset) s.length

inductive Runs (b : ByteArray) (low window : Nat) : Nat → List LongSeq → Nat → Prop
  | nil (p : Nat) : Runs b low window p [] p
  | cons {p q : Nat} {s : LongSeq} {seqs : List LongSeq} :
      LongFits b low window p s → Runs b low window (p + s.literals + s.length) seqs q → Runs b low window p (s :: seqs) q

section

variable {b : ByteArray} {low window p q : Nat} {seqs : List LongSeq}

theorem Runs.append (h : Runs b low window p seqs q) (h' : Runs b low window q seqs' q') :
    Runs b low window p (seqs ++ seqs') q' := by
  induction h with
  | nil => exact h'
  | cons hf _ ih => exact .cons hf (ih h')

theorem Runs.le (h : Runs b low window p seqs q) : p ≤ q := by
  induction h with
  | nil => exact le_rfl
  | cons _ _ ih => omega

/-! ### Cursors -/

/-- The cursor stands at the position `p` of a run. -/
def Ahead.Stands (a : Ahead) (b : ByteArray) (low window p : Nat) : Prop :=
  ∃ s q, p = s + a.within ∧ Runs b low window s (a.seqs.toList.drop a.pos) q

theorem Ahead.drop_of_not_done (h : a.done = false) :
    a.seqs.toList.drop a.pos = a.seqs.getD a.pos default :: a.seqs.toList.drop (a.pos + 1) := by
  simp_all [Ahead.done, List.drop_eq_getElem_cons]

theorem Ahead.drop_of_done (h : a.done = true) : a.seqs.toList.drop a.pos = [] := by
  simpa [Ahead.done] using h

theorem Ahead.passFrom_stands (fuel : Nat) :
    ∀ (a : Ahead) (bytes s q : Nat), a.seqs.size - a.pos < fuel → Runs b low window s (a.seqs.toList.drop a.pos) q →
      (a.passFrom bytes fuel).Stands b low window (s + bytes) := by
  induction fuel with
  | zero => omega
  | succ fuel ih =>
    intro a bytes s q hf h
    rw [passFrom]
    split
    · rename_i hend
      rcases Bool.or_eq_true_iff.1 hend with h0 | hd
      · exact ⟨s, q, by simpa using h0, h⟩
      · have hnil := Ahead.drop_of_done hd
        exact ⟨s + bytes, s + bytes, rfl, by rw [hnil]; exact .nil _⟩
    · rename_i hend
      obtain ⟨h0, hd⟩ := not_or.1 (fun h => hend (Bool.or_eq_true_iff.2 h))
      have hd : a.done = false := by simpa using hd
      have hlt : a.pos < a.seqs.size := by simpa [Ahead.done] using hd
      rw [Ahead.drop_of_not_done hd] at h
      cases h with
      | cons hfit hrest =>
        by_cases hle : (a.seqs.getD a.pos default).literals + (a.seqs.getD a.pos default).length ≤ bytes
        · have := ih { a with pos := a.pos + 1 } (bytes - ((a.seqs.getD a.pos default).literals +
            (a.seqs.getD a.pos default).length)) _ q (by dsimp only; omega) hrest
          grind
        · rw [if_neg hle]
          exact ⟨s, q, rfl, by rw [Ahead.drop_of_not_done hd]; exact .cons hfit hrest⟩

theorem Ahead.Stands.pass (h : a.Stands b low window p) (n : Nat) : (a.pass n).Stands b low window (p + n) := by
  obtain ⟨s, q, hp, hr⟩ := h
  rw [hp, add_assoc]
  exact passFrom_stands _ a (a.within + n) s q (by omega) hr

/-- The sequence at hand, whose literals and match lie from `p` on. -/
theorem Ahead.Stands.here (h : a.Stands b low window p) (hd : a.done = false) :
    ∃ m, LongFits b low window (m - (a.seqs.getD a.pos default).literals) (a.seqs.getD a.pos default) ∧
      (a.seqs.getD a.pos default).literals ≤ m ∧ p + (a.seqs.getD a.pos default).literals = m + a.within := by
  obtain ⟨s, q, hp, hr⟩ := h
  rw [Ahead.drop_of_not_done hd] at hr
  cases hr with
  | cons hfit _ =>
    exact ⟨s + (a.seqs.getD a.pos default).literals, by rwa [Nat.add_sub_cancel], by omega, by omega⟩

end

/-! ### The search -/

namespace LongDistance

variable {b : ByteArray} {l : LongDistance} {window stop anchor pos : Nat}

/-- What holds of the tables before the position `n` is entered: only earlier ones have been. -/
structure Sorted (l : LongDistance) (n : Nat) : Prop where
  first_le : firstPosition ≤ l.low
  low_le : l.low ≤ l.start
  least : 3 ≤ l.tuning.minMatch
  below : l.positions.Below n

theorem Sorted.mono (h : l.Sorted n) (hm : n ≤ m) : l.Sorted m := { h with below := h.below.mono hm }

theorem Sorted.enter (h : l.Sorted n) (bucket sum : Nat) (hp : pos < n) : (l.enter bucket sum pos).Sorted n :=
  { first_le := h.first_le, low_le := h.low_le, least := h.least, below := h.below.set hp }

/-- A candidate is a match of `pos`, perhaps with bytes before it. -/
structure Candidate.Good (c : Candidate) (b : ByteArray) (window stop anchor pos : Nat) : Prop where
  least : 3 ≤ c.forward
  forward_le : pos + c.forward ≤ stop
  backward_le : anchor + c.backward ≤ pos
  within : Within firstPosition window (pos - c.backward) (pos - c.pos)
  agree : Agree b (pos - c.backward) (c.pos - c.backward) (c.forward + c.backward)
  before : c.pos < pos

theorem search_good (hs : l.Sorted pos) (hw : stop ≤ l.low + window) (ha : anchor ≤ pos) (hp : pos ≤ stop) (bucket sum n : Nat) :
    ∀ (k : Nat) (best : Option Candidate), (∀ c ∈ best, c.Good b window stop anchor pos) →
      ∀ c ∈ l.search b pos anchor stop bucket sum k best n, c.Good b window stop anchor pos := by
  induction n with
  | zero => exact fun k best hb => hb
  | succ n ih =>
    intro k best hb
    rw [search]
    dsimp only
    have hm := hs.below (bucket * 2 ^ l.tuning.bucketLog + k)
    generalize l.positions.get (bucket * 2 ^ l.tuning.bucketLog + k) = m at hm ⊢
    have hlow : (if l.low < l.start then l.low else l.start) = l.low := by
      have := hs.low_le
      split <;> omega
    rw [hlow]
    split
    · exact ih _ _ hb
    · rename_i hskip
      have hlm : l.low < m := by
        simp only [Bool.or_eq_true, decide_eq_true_eq, not_or, not_le] at hskip
        exact hskip.2
      split
      · exact ih _ _ hb
      · rename_i hlong
        have h1 := agreement_le b pos m stop
        have h2 := backward_le b pos anchor m l.low
        have h3 := (agree_backward b pos anchor m l.low).append (m := agreement b pos m stop) (by
            grind [agree_agreement])
        have h4 := hs.least
        have h5 := hs.first_le
        generalize hback : backward b pos anchor m l.low = back at h2 h3 ⊢
        generalize agreement b pos m stop = forward at h1 h3 hlong ⊢
        have hgood : Candidate.Good ⟨m, forward, back⟩ b window stop anchor pos :=
          { least := by dsimp only; omega
            forward_le := by dsimp only; omega
            backward_le := by dsimp only; omega
            within := ⟨by dsimp only; omega, by dsimp only; omega, by dsimp only; omega⟩
            agree := by rwa [add_comm]
            before := hm }
        grind

/-- What has been found up to `anchor`. -/
structure Found (l : LongDistance) (b : ByteArray) (i n anchor : Nat) (seqs : Array LongSeq) : Prop where
  sorted : l.Sorted n
  runs : Runs b firstPosition (2 ^ l.windowLog) i seqs.toList anchor

theorem Found.push {c : Candidate} (h : l.Found b i n anchor seqs)
    (hc : c.Good b (2 ^ l.windowLog) stop anchor pos) (bucket sum : Nat) (hp : pos < n) :
    (l.enter bucket sum pos).Found b i n (pos + c.forward)
      (seqs.push ⟨pos - c.backward - anchor, c.forward + c.backward, pos - c.pos⟩) := by
  refine ⟨h.sorted.enter bucket sum hp, ?_⟩
  have hb := hc.backward_le
  have hl := hc.least
  have hcp := hc.before
  have hs : anchor + (pos - c.backward - anchor) = pos - c.backward := by omega
  have hfit : LongFits b firstPosition (2 ^ l.windowLog) anchor
      ⟨pos - c.backward - anchor, c.forward + c.backward, pos - c.pos⟩ :=
    { least := by dsimp only; omega
      within := by rw [hs]; exact hc.within
      agree := by
        rw [hs, show pos - c.backward - (pos - c.pos) = c.pos - c.backward by omega]
        exact hc.agree }
  rw [Array.toList_push]
  refine h.runs.append (.cons hfit ?_)
  rw [show anchor + (pos - c.backward - anchor) + (c.forward + c.backward) = pos + c.forward by omega]
  exact .nil _

/-- The places still to be looked up, behind those whose positions have been entered. -/
structure Coming (least n rolled : Nat) (places : List Nat) : Prop where
  increasing : places.Pairwise (· < ·)
  after : ∀ p ∈ places, n ≤ p - least
  long : ∀ p ∈ places, least ≤ p
  upto : ∀ p ∈ places, p ≤ rolled

theorem lookUp_found (places : List Nat) :
    ∀ (l : LongDistance) (n anchor : Nat) (seqs : Array LongSeq), l.Found b i n anchor seqs →
      Coming l.tuning.minMatch n rolled places → stop ≤ l.low + 2 ^ l.windowLog → rolled ≤ stop → anchor ≤ stop →
      n ≤ rolled - l.tuning.minMatch + 1 →
      let r := l.lookUp b stop rolled anchor seqs places
      r.1.Found b i (rolled - l.tuning.minMatch + 1) r.2.1 r.2.2 ∧ r.2.1 ≤ stop ∧ r.1.tuning = l.tuning ∧
        r.1.windowLog = l.windowLog ∧ r.1.low = l.low ∧ r.1.start = l.start := by
  induction places with
  | nil =>
    intro l n anchor seqs h hc hw hr ha hn
    exact ⟨⟨h.sorted.mono hn, h.runs⟩, ha, rfl, rfl, rfl, rfl⟩
  | cons place rest ih =>
    intro l n anchor seqs h hc hw hr ha hn
    rw [lookUp]
    generalize XxHash64.range b (place - l.tuning.minMatch) place = hash
    generalize (hash &&& (((1 : UInt64) <<< (l.tuning.hashLog - l.tuning.bucketLog).toUInt64) - 1)).toNat = bucket
    generalize (hash >>> 32).toNat = sum
    have hpn := hc.after place (by simp)
    have hpl := hc.long place (by simp)
    have hpr := hc.upto place (by simp)
    have hrest : Coming l.tuning.minMatch (place - l.tuning.minMatch + 1) rolled rest :=
      { increasing := (List.pairwise_cons.1 hc.increasing).2
        after := fun p hp => by
          have := (List.pairwise_cons.1 hc.increasing).1 p hp
          omega
        long := fun p hp => hc.long p (List.mem_cons_of_mem _ hp)
        upto := fun p hp => hc.upto p (List.mem_cons_of_mem _ hp) }
    have hn' : place - l.tuning.minMatch + 1 ≤ rolled - l.tuning.minMatch + 1 := by omega
    have hsorted := h.sorted.mono hpn
    have hmono : l.Found b i (place - l.tuning.minMatch + 1) anchor seqs := ⟨hsorted.mono (Nat.le_succ _), h.runs⟩
    have hpass : (l.enter bucket sum (place - l.tuning.minMatch)).Found b i (place - l.tuning.minMatch + 1) anchor seqs :=
      ⟨hmono.sorted.enter bucket sum (Nat.lt_succ_self _), h.runs⟩
    split
    · exact ih _ _ _ _ hpass hrest hw hr ha hn'
    · rename_i hpa
      have hsearch := search_good (b := b) hsorted hw (not_lt.1 hpa) (by omega) bucket sum (2 ^ l.tuning.bucketLog) 0 none
        (by simp)
      generalize l.search b (place - l.tuning.minMatch) anchor stop bucket sum 0 none (2 ^ l.tuning.bucketLog) = best at hsearch ⊢
      cases best with
      | none => exact ih _ _ _ _ hpass hrest hw hr ha hn'
      | some c =>
        dsimp only
        have hc := hsearch c rfl
        have hpush := hmono.push hc bucket sum (Nat.lt_succ_self _)
        have hle := hc.forward_le
        split
        · exact ⟨⟨hpush.sorted.mono (by omega), hpush.runs⟩, hle, rfl, rfl, rfl, rfl⟩
        · exact ih _ _ _ _ hpush hrest hw hr hle hn'

/-- The places chosen lie from the start on, in order, the latest first. -/
theorem roll_spec (b : ByteArray) (mask : UInt64) (n : Nat) :
    ∀ (hash : UInt64) (i : Nat) (chosen : List Nat) (free : Nat), chosen.Pairwise (· > ·) → (∀ p ∈ chosen, p ≤ i) →
      ∀ (low : Nat), low ≤ i → (∀ p ∈ chosen, low < p) →
      let r := roll b mask hash i chosen free n
      r.1.Pairwise (· > ·) ∧ (∀ p ∈ r.1, p ≤ r.2.1) ∧ (∀ p ∈ r.1, low < p) ∧ i ≤ r.2.1 ∧ r.2.1 ≤ i + n ∧
        (0 < n → i < r.2.1) := by
  induction n with
  | zero => exact fun hash i chosen free h1 h2 low h3 h4 => ⟨h1, h2, h4, le_rfl, le_rfl, by simp⟩
  | succ n ih =>
    intro hash i chosen free h1 h2 low h3 h4
    rw [roll]
    have h1' : ((i + 1) :: chosen).Pairwise (· > ·) :=
      List.pairwise_cons.2 ⟨fun p hp => Nat.lt_succ_of_le (h2 p hp), h1⟩
    have h2' : ∀ p ∈ (i + 1) :: chosen, p ≤ i + 1 := fun p hp => by
      grind
    have h4' : ∀ p ∈ (i + 1) :: chosen, low < p := fun p hp => by
      grind
    split
    · split
      · grind
      · obtain ⟨a1, a2, a3, a4, a5, -⟩ := ih (turn hash (natAt b i)) (i + 1) _ (free - 1) h1' h2' low (by omega) h4'
        grind
    · obtain ⟨a1, a2, a3, a4, a5, -⟩ := ih (turn hash (natAt b i)) (i + 1) _ free h1
        (fun p hp => Nat.le_succ_of_le (h2 p hp)) low (by omega) h4
      grind

/-- All batches of a block up to `stop` keep what has been found. -/
theorem findFrom_found (hstop : hashReach ≤ stop) (fuel : Nat) :
    ∀ (l : LongDistance) (pos anchor : Nat) (hash : UInt64) (seqs : Array LongSeq),
      l.Found b i (pos - l.tuning.minMatch + 1) anchor seqs → stop ≤ l.low + 2 ^ l.windowLog → anchor ≤ stop →
      l.tuning.minMatch ≤ pos → pos - l.tuning.minMatch + 1 ≤ stop →
      let r := l.findFrom b stop pos anchor hash seqs fuel
      r.1.tuning = l.tuning ∧ r.1.windowLog = l.windowLog ∧ r.1.low = l.low ∧ r.1.start = l.start ∧ r.1.Sorted stop ∧
        ∃ q ≤ stop, Runs b firstPosition (2 ^ l.windowLog) i r.2.toList q := by
  induction fuel with
  | zero => exact fun l pos anchor hash seqs h _ ha _ hp => ⟨rfl, rfl, rfl, rfl, h.sorted.mono hp, anchor, ha, h.runs⟩
  | succ fuel ih =>
    intro l pos anchor hash seqs h hw ha hpm hps
    rw [findFrom]
    split
    · exact ⟨rfl, rfl, rfl, rfl, h.sorted.mono hps, anchor, ha, h.runs⟩
    · have hroll := roll_spec b (mask l.tuning) (stop - hashReach - pos) hash pos [] batchSize .nil (by simp) pos
        le_rfl (by simp)
      generalize roll b (mask l.tuning) hash pos [] batchSize (stop - hashReach - pos) = r at hroll ⊢
      obtain ⟨chosen, rolled, hash'⟩ := r
      dsimp only at hroll ⊢
      obtain ⟨h1, h2, h3, h4, h5, h6⟩ := hroll
      have hcoming : Coming l.tuning.minMatch (pos - l.tuning.minMatch + 1) rolled chosen.reverse :=
        { increasing := List.pairwise_reverse.2 h1
          after := fun p hp => by
            grind
          long := fun p hp => by
            grind
          upto := fun p hp => h2 p (List.mem_reverse.1 hp) }
      have hlook := lookUp_found (b := b) (i := i) chosen.reverse l _ anchor seqs h hcoming hw
        (show rolled ≤ stop by omega) ha (by omega)
      generalize l.lookUp b stop rolled anchor seqs chosen.reverse = r at hlook ⊢
      obtain ⟨l', anchor', seqs'⟩ := r
      dsimp only at hlook ⊢
      obtain ⟨hf, ha', ht, hwl, hlow, hst⟩ := hlook
      have hf' : l'.Found b i (max rolled anchor' - l'.tuning.minMatch + 1) anchor' seqs' :=
        ⟨hf.sorted.mono (by rw [ht]; omega), hf.runs⟩
      have hl := hf.sorted.least
      obtain ⟨r1, r2, r3, r4, r5, q, hq, hr⟩ := ih l' (max rolled anchor') anchor' hash' seqs' hf' (by rw [hlow, hwl]; exact hw)
        ha' (by rw [ht]; omega) (by omega)
      grind

theorem find_spec (h : l.Sorted i) (hij : i ≤ j) :
    let r := l.find b i j
    r.1.tuning = l.tuning ∧ r.1.windowLog = l.windowLog ∧ l.low ≤ r.1.low ∧ r.1.Sorted j ∧
      ∃ q ≤ j, Runs b firstPosition (2 ^ l.windowLog) i r.2.seqs.toList q ∧ r.2.pos = 0 ∧ r.2.within = 0 := by
  rw [find]
  dsimp only
  have h1 := h.first_le
  have h3 := h.least
  generalize hw : 2 ^ l.windowLog = w
  have hsorted : Sorted { l with low := max l.low (j - w), start := max l.start (max l.low (j - w)) } i :=
    ⟨by dsimp only; omega, by dsimp only; omega, h3, h.below⟩
  split
  · exact ⟨rfl, rfl, by dsimp only; omega, hsorted.mono hij, i, hij, .nil _, rfl, rfl⟩
  · by_cases hreach : hashReach ≤ j
    · have hfound : Found { l with low := max l.low (j - w), start := max l.start (max l.low (j - w)) } b i
          (i + l.tuning.minMatch - l.tuning.minMatch + 1) i #[] :=
        ⟨hsorted.mono (by omega), .nil _⟩
      have := findFrom_found hreach (j - i) _ (i + l.tuning.minMatch) i firstHash #[] hfound
        (by dsimp only; omega) hij (by dsimp only; omega) (by dsimp only; omega)
      grind
    · have hzero : findFrom { l with low := max l.low (j - w), start := max l.start (max l.low (j - w)) } b j
          (i + l.tuning.minMatch) i firstHash #[] (j - i) =
          ({ l with low := max l.low (j - w), start := max l.start (max l.low (j - w)) }, #[]) := by
        cases j - i with
        | zero => rfl
        | succ n => rw [findFrom, if_pos (by omega)]
      rw [hzero]
      exact ⟨rfl, rfl, by dsimp only; omega, hsorted.mono hij, i, hij, .nil _, rfl, rfl⟩

end LongDistance

end ZstCodec.Match
