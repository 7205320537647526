import Mathlib.Data.List.Perm.Subperm
import Mathlib.Data.List.Nodup
import Mathlib.Data.Nat.ModEq
import Mathlib.Data.Nat.Prime.Basic
import Mathlib.Tactic.Ring
import ZstCodec.Fse.Table

/-! # How a distribution is spread

The stride is odd and the number of states is a power of two, so the strides meet every state once. Rare symbols take
the top states, the others what the strides meet below them, so every symbol owns as many states as its share
(`count_spread`). -/

namespace ZstCodec.Fse

variable {ps vs : List Nat} {log n p : Nat}

/-! ### Entering values at places -/

/-- Enter values at places, one after the other. -/
def enter (t : Array Nat) : List Nat → List Nat → Array Nat
  | p :: ps, v :: vs => enter (t.setIfInBounds p v) ps vs
  | _, _ => t

@[simp] theorem enter_nil (t : Array Nat) (vs : List Nat) : enter t [] vs = t := by
  cases vs <;> rfl

@[simp] theorem size_enter (t : Array Nat) (ps vs : List Nat) : (enter t ps vs).size = t.size := by
  induction ps generalizing t vs with
  | nil => rw [enter_nil]
  | cons p ps ih =>
    cases vs with
    | nil => rfl
    | cons v vs => rw [enter, ih, Array.size_setIfInBounds]

theorem enter_append (h : ps.length = vs.length) (t : Array Nat) (qs us : List Nat) :
    enter t (ps ++ qs) (vs ++ us) = enter (enter t ps vs) qs us := by
  induction ps generalizing t vs with
  | nil =>
    grind [enter_nil]
  | cons p ps ih =>
    cases vs with
    | nil => cases h
    | cons v vs => exact ih (Nat.succ.inj h) _

theorem getD_enter_of_not_mem (h : p ∉ ps) (t : Array Nat) (vs : List Nat) :
    (enter t ps vs).getD p 0 = t.getD p 0 := by
  induction ps generalizing t vs with
  | nil => rw [enter_nil]
  | cons q ps ih =>
    cases vs with
    | nil => rfl
    | cons v vs =>
      simp_all [enter, Ne.symm]

theorem map_getD_enter (t : Array Nat) (hn : ps.Nodup) (hlt : ∀ p ∈ ps, p < t.size) (hl : ps.length = vs.length) :
    ps.map (fun p => (enter t ps vs).getD p 0) = vs := by
  induction ps generalizing t vs with
  | nil =>
    grind
  | cons p ps ih =>
    cases vs with
    | nil => cases hl
    | cons v vs =>
      obtain ⟨hp, hn⟩ := List.nodup_cons.1 hn
      rw [List.map_cons, enter, getD_enter_of_not_mem hp,
        ih (t.setIfInBounds p v) hn (fun q hq => by simpa using hlt q (by simp [hq])) (Nat.succ.inj hl)]
      simp_all

theorem toList_eq_map_getD {α : Type} (t : Array α) (x : α) : t.toList = (List.range t.size).map fun i => t.getD i x := by
  apply List.ext_getElem
  · simp
  simp_all

/-- When every place is entered once, the table holds the values, in some order. -/
theorem enter_perm (hp : ps.Perm (List.range t.size)) (hl : ps.length = vs.length) :
    (enter t ps vs).toList.Perm vs := by
  have hmap := map_getD_enter t (hp.nodup_iff.2 List.nodup_range) (fun p h => List.mem_range.1 (hp.mem_iff.1 h)) hl
  rw [toList_eq_map_getD, size_enter]
  exact (hp.map fun i => (enter t ps vs).getD i 0).symm.trans (by rw [hmap])

/-! ### Strides -/

section

variable {size step high : Nat}

/-- The states below the top that the strides `k`, `k + 1`, … meet, for `n` strides. -/
def met (size step high k n : Nat) : List Nat :=
  ((List.range' k n).map fun k => k * step % size).filter (· ≤ high)

theorem nextFree_met :
    ∀ (fuel : Nat) {k p : Nat} {ps : List Nat}, n ≤ fuel → met size step high (k + 1) n = p :: ps →
      nextFree size step high (k * step % size) fuel = p ∧
        ∃ k' n', n' < n ∧ p = k' * step % size ∧ ps = met size step high (k' + 1) n' := by
  induction n with
  | zero => simp_all [met]
  | succ n ih =>
    intro fuel k p ps hf h
    obtain ⟨fuel, rfl⟩ : ∃ f, fuel = f + 1 := ⟨fuel - 1, by omega⟩
    have hpos : (k * step % size + step) % size = (k + 1) * step % size := by
      rw [Nat.mod_add_mod, add_mul, one_mul]
    rw [nextFree, hpos]
    rw [met, List.range'_succ, List.map_cons] at h
    by_cases hhigh : high < (k + 1) * step % size
    · rw [List.filter_cons_of_neg (by simpa using hhigh)] at h
      obtain ⟨h1, k', n', h2, h3, h4⟩ := ih fuel (by omega) h
      grind
    · rw [List.filter_cons_of_pos (by simpa using hhigh)] at h
      rw [if_neg hhigh]
      cases h
      exact ⟨rfl, k + 1, n, by omega, rfl, rfl⟩

theorem met_start (h : 0 < size) : met size step high 0 size = 0 :: met size step high (0 + 1) (size - 1) := by
  obtain ⟨n, rfl⟩ : ∃ n, size = n + 1 := ⟨size - 1, by omega⟩
  simp [met, List.range'_succ]

/-- The states `ps` are still to be met, the first of them at `pos`. -/
def Waits (size step high : Nat) (ps : List Nat) (pos : Nat) : Prop :=
  ps = [] ∨ ∃ k n, n ≤ size ∧ pos = k * step % size ∧ ps = pos :: met size step high (k + 1) n

theorem Waits.next (h : Waits size step high (p :: ps) pos) :
    p = pos ∧ Waits size step high ps (nextFree size step high pos size) := by
  rcases h with h | ⟨k, n, hn, hpos, h⟩
  · cases h
  obtain ⟨rfl, hps⟩ := List.cons.inj h
  refine ⟨rfl, ?_⟩
  rcases ps with _ | ⟨q, ps⟩
  · exact .inl rfl
  · obtain ⟨h1, k', n', h2, h3, h4⟩ := nextFree_met size hn hps.symm
    refine .inr ⟨k', n', by omega, ?_, ?_⟩
    · rw [hpos, h1, h3]
    · rw [hpos, h1, h4]

theorem placeMany_eq (s n : Nat) :
    ∀ (t : Array Nat) (pos : Nat) (ps : List Nat), Waits size step high ps pos → n ≤ ps.length →
      ∃ pos', placeMany size step high s t pos n = (enter t (ps.take n) (List.replicate n s), pos') ∧
        Waits size step high (ps.drop n) pos' := by
  induction n with
  | zero => simp_all [placeMany]
  | succ n ih =>
    intro t pos ps h hn
    rcases ps with _ | ⟨p, ps⟩
    · cases hn
    obtain ⟨rfl, hw⟩ := h.next
    rw [placeMany]
    obtain ⟨pos', h1, h2⟩ := ih (t.setIfInBounds p s) _ ps hw (by simpa using hn)
    exact ⟨pos', by rw [h1]; rfl, h2⟩

theorem foldl_placeMany_eq (c : Nat → Nat) (ss : List Nat) :
    ∀ (t : Array Nat) (pos : Nat) (ps : List Nat), Waits size step high ps pos → (ss.map c).sum ≤ ps.length →
      (ss.foldl (fun (acc : Array Nat × Nat) s => placeMany size step high s acc.1 acc.2 (c s)) (t, pos)).1 =
        enter t (ps.take (ss.map c).sum) (ss.flatMap fun s => List.replicate (c s) s) := by
  induction ss with
  | nil => exact fun t pos ps h _ => by simp
  | cons s ss ih =>
    intro t pos ps h hsum
    rw [List.map_cons, List.sum_cons] at hsum
    obtain ⟨pos', h1, h2⟩ := placeMany_eq s (c s) t pos ps h (by omega)
    grind [enter_append]

/-- An odd stride meets all states. -/
theorem strides_perm (hodd : step % 2 = 1) :
    ((List.range (2 ^ log)).map fun k => k * step % 2 ^ log).Perm (List.range (2 ^ log)) := by
  have hcop : (2 ^ log).Coprime step := by
    apply Nat.Coprime.pow_left
    exact Nat.coprime_two_left.2 (Nat.odd_iff.2 hodd)
  have hnodup : ((List.range (2 ^ log)).map fun k => k * step % 2 ^ log).Nodup := by
    refine (List.nodup_map_iff_inj_on List.nodup_range).2 fun x hx y hy h => ?_
    have hmod : x ≡ y [MOD 2 ^ log] := Nat.ModEq.cancel_right_of_coprime hcop h
    have h1 := Nat.mod_eq_of_lt (List.mem_range.1 hx)
    have h2 := Nat.mod_eq_of_lt (List.mem_range.1 hy)
    rw [← h1, ← h2]
    exact hmod
  refine (List.subperm_of_subset hnodup fun p hp => ?_).perm_of_length_le (by simp)
  obtain ⟨k, -, rfl⟩ := List.mem_map.1 hp
  simp_all [Nat.mod_lt]

end

/-! ### Rare symbols -/

/-- The `n` states from `top` downwards. -/
def downFrom (top n : Nat) : List Nat := (List.range n).map (top - ·)

theorem downFrom_succ (top n : Nat) : downFrom top (n + 1) = top :: downFrom (top - 1) n := by
  unfold downFrom
  rw [List.range_succ_eq_map, List.map_cons, List.map_map]
  congr 1
  exact List.map_congr_left fun k _ => by simp only [Function.comp]; omega

theorem downFrom_nodup (h : n ≤ top + 1) : (downFrom top n).Nodup := by
  refine (List.nodup_map_iff_inj_on List.nodup_range).2 fun x hx y hy h => ?_
  grind

theorem downFrom_perm (h : 0 < n) : (downFrom (n - 1) n).Perm (List.range n) := by
  refine (List.perm_ext_iff_of_nodup (downFrom_nodup (by omega)) List.nodup_range).2 fun p => ?_
  simp only [downFrom, List.mem_map, List.mem_range]
  exact ⟨fun ⟨k, hk, hp⟩ => by omega, fun hp => ⟨n - 1 - p, by omega, by omega⟩⟩

theorem foldl_placeRare (counts : Array Int) (ss : List Nat) :
    ∀ (t : Array Nat) (top : Nat),
      ss.foldl (fun (acc : Array Nat × Nat) s =>
          if counts.getD s 0 = -1 then (acc.1.setIfInBounds acc.2 s, acc.2 - 1) else acc) (t, top) =
        (enter t (downFrom top (ss.filter fun s => counts.getD s 0 = -1).length) (ss.filter fun s => counts.getD s 0 = -1),
          top - (ss.filter fun s => counts.getD s 0 = -1).length) := by
  induction ss with
  | nil => exact fun t top => by simp [downFrom]
  | cons s ss ih =>
    intro t top
    rw [List.foldl_cons]
    by_cases hs : counts.getD s 0 = -1
    · rw [if_pos hs, ih, List.filter_cons_of_pos (by simpa using hs), List.length_cons, downFrom_succ, enter, Nat.sub_sub,
        add_comm 1]
    simp_all

/-! ### The spread -/

namespace Distribution

variable {d : Distribution}

def share (d : Distribution) (s : Nat) : Nat := (d.count s).natAbs

/-- All states are given away. -/
structure Valid (d : Distribution) : Prop where
  le_log : minLog ≤ d.log
  log_le : d.log ≤ maxLog
  ge : ∀ s, -1 ≤ d.count s
  sum : ((List.range d.counts.size).map d.share).sum = 2 ^ d.log

def rare (d : Distribution) : List Nat := (List.range d.counts.size).filter fun s => d.counts.getD s 0 = -1

theorem count_rare (d : Distribution) (s : Nat) : d.rare.count s = if d.count s = -1 then 1 else 0 := by
  have hnodup : d.rare.Nodup := List.nodup_range.filter _
  have hmem : s ∈ d.rare ↔ d.count s = -1 := by
    rw [rare, List.mem_filter, List.mem_range, decide_eq_true_eq, count]
    refine and_iff_right_of_imp fun h => ?_
    by_contra hlt
    rw [Array.getD_eq_getD_getElem?, Array.getElem?_eq_none (by omega)] at h
    cases h
  rw [hnodup.count]
  simp only [hmem]

/-- The other symbols, each as often as its share. -/
def frequent (d : Distribution) : List Nat :=
  (List.range d.counts.size).flatMap fun s => List.replicate (d.counts.getD s 0).toNat s

theorem count_frequent (d : Distribution) (s : Nat) : d.frequent.count s = (d.count s).toNat := by
  have hcount (n : Nat) : ((List.range n).flatMap fun s => List.replicate (d.counts.getD s 0).toNat s).count s =
      if s < n then (d.count s).toNat else 0 := by
    induction n with
    | zero => simp
    | succ n ih =>
      rw [List.range_succ, List.flatMap_append, List.count_append, ih, List.flatMap_singleton, List.count_replicate]
      rcases lt_trichotomy s n with h | rfl | h
      · grind
      · simp [count]
      grind
  simp_all [frequent, count]

theorem length_shares (h : ∀ s, -1 ≤ d.count s) (ss : List Nat) :
    (ss.filter fun s => d.counts.getD s 0 = -1).length + (ss.map fun s => (d.counts.getD s 0).toNat).sum = (ss.map d.share).sum := by
  induction ss with
  | nil => rfl
  | cons s ss ih =>
    grind [count, share]

theorem rare_add_frequent (h : d.Valid) : d.rare.length + ((List.range d.counts.size).map fun s => (d.counts.getD s 0).toNat).sum = d.size := by
  rw [size, ← h.sum, ← length_shares h.ge]
  rfl

theorem stride_odd (h : minLog ≤ log) : (2 ^ log / 2 + 2 ^ log / 8 + 3) % 2 = 1 := by
  have hmin : minLog = 5 := rfl
  obtain ⟨n, rfl⟩ : ∃ n, log = n + 5 := ⟨log - 5, by omega⟩
  rw [pow_add]
  omega

/-- The states from the top downwards and those met below them are all states. -/
theorem states_perm (log : Nat) (hodd : step % 2 = 1) (hr : r < 2 ^ log) :
    (downFrom (2 ^ log - 1) r ++ met (2 ^ log) step (2 ^ log - 1 - r) 0 (2 ^ log)).Perm (List.range (2 ^ log)) := by
  have hmet : (met (2 ^ log) step (2 ^ log - 1 - r) 0 (2 ^ log)).Perm
      ((List.range (2 ^ log)).filter (· ≤ 2 ^ log - 1 - r)) := by
    unfold met
    rw [← List.range_eq_range']
    exact (strides_perm hodd).filter _
  have hdown : (downFrom (2 ^ log - 1) r).Perm ((List.range (2 ^ log)).filter fun p => ! decide (p ≤ 2 ^ log - 1 - r)) := by
    refine (List.perm_ext_iff_of_nodup (downFrom_nodup (by omega)) (List.nodup_range.filter _)).2 fun p => ?_
    simp only [downFrom, List.mem_map, List.mem_range, List.mem_filter, Bool.not_eq_true', decide_eq_false_iff_not]
    exact ⟨fun ⟨k, hk, hp⟩ => by omega, fun ⟨h1, h2⟩ => ⟨2 ^ log - 1 - p, by omega, by omega⟩⟩
  exact (List.perm_append_comm.trans ((hmet.append hdown).trans (List.filter_append_perm _ _)))

theorem spread_eq (d : Distribution) :
    d.spread = ((List.range d.counts.size).foldl
      (fun (acc : Array Nat × Nat) s =>
        placeMany d.size (d.size / 2 + d.size / 8 + 3) (d.size - 1 - d.rare.length) s acc.1 acc.2 (d.counts.getD s 0).toNat)
      (enter (Array.replicate d.size 0) (downFrom (d.size - 1) d.rare.length) d.rare, 0)).1 := by
  unfold spread
  dsimp only
  rw [placeRare, foldl_placeRare, Array.size_replicate]
  rfl

theorem length_frequent (d : Distribution) :
    d.frequent.length = ((List.range d.counts.size).map fun s => (d.counts.getD s 0).toNat).sum := by
  simp [frequent, List.length_flatMap]

theorem spread_enter (h : d.Valid) :
    ∃ ps : List Nat, ps.Perm (List.range d.size) ∧ ps.length = (d.rare ++ d.frequent).length ∧
      d.spread = enter (Array.replicate d.size 0) ps (d.rare ++ d.frequent) := by
  have hsum := rare_add_frequent h
  have hpos : 0 < d.size := Nat.two_pow_pos _
  have hlen (top n : Nat) : (downFrom top n).length = n := by simp [downFrom]
  rw [spread_eq]
  rcases lt_or_ge d.rare.length d.size with hr | hr
  · have hperm := states_perm d.log (stride_odd h.le_log) hr
    change (downFrom (d.size - 1) d.rare.length ++
      met d.size (d.size / 2 + d.size / 8 + 3) (d.size - 1 - d.rare.length) 0 d.size).Perm (List.range d.size) at hperm
    generalize hps : met d.size (d.size / 2 + d.size / 8 + 3) (d.size - 1 - d.rare.length) 0 d.size = ps at hperm
    have hstart : Waits d.size (d.size / 2 + d.size / 8 + 3) (d.size - 1 - d.rare.length) ps 0 :=
      .inr ⟨0, d.size - 1, by omega, by simp, by rw [← hps, met_start hpos]⟩
    have hmet : ps.length = ((List.range d.counts.size).map fun s => (d.counts.getD s 0).toNat).sum := by
      have := hperm.length_eq
      rw [List.length_append, List.length_range, hlen] at this
      omega
    rw [foldl_placeMany_eq (fun s => (d.counts.getD s 0).toNat) _ _ _ _ hstart (le_of_eq hmet.symm), ← hmet, List.take_length,
      ← enter_append (hlen _ _)]
    exact ⟨_, hperm, by simp_all [length_frequent], rfl⟩
  · -- no state is left for the frequent symbols
    have hzero : ((List.range d.counts.size).map fun s => (d.counts.getD s 0).toNat).sum = 0 := by omega
    have hr' : d.rare.length = d.size := by omega
    rw [foldl_placeMany_eq (fun s => (d.counts.getD s 0).toNat) _ _ _ [] (.inl rfl) (by rw [hzero]; exact le_rfl), List.take_nil,
      enter_nil, List.eq_nil_of_length_eq_zero ((length_frequent d).trans hzero), List.append_nil, hr']
    exact ⟨_, downFrom_perm hpos, by rw [hlen], rfl⟩

theorem size_spread (h : d.Valid) : d.spread.size = d.size := by
  grind [spread_enter, size_enter]

theorem count_spread (h : d.Valid) (s : Nat) : d.spread.toList.count s = d.share s := by
  obtain ⟨ps, hp, hl, he⟩ := spread_enter h
  have hperm : d.spread.toList.Perm (d.rare ++ d.frequent) := by
    rw [he]
    exact enter_perm (by rwa [Array.size_replicate]) hl
  have hge := h.ge s
  grind [count_rare, count_frequent, share]

end Distribution

end ZstCodec.Fse
