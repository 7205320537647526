import ZstCodec.Proofs.Fse.Spread
import ZstCodec.Proofs.Bits

/-! # Coding and decoding with finite states

The states of a symbol are numbered from its share upwards. The encoder goes to the state whose number is the old state
without its low bits, and writes these; the decoder knows from the number how many, and puts them back. So one step of
the decoder undoes one of the encoder (`Matches`), for every valid distribution (`Distribution.Valid.matches_encoder`). -/

namespace ZstCodec.Fse

variable {w : BitWriter} {l : List Nat} {k log n u x : Nat} {α : Type}

/-! ### Numbers handed out -/

/-- Each symbol in the list gets a number: consecutive ones for the same symbol, from its start on. -/
def numbered (start : Nat → Nat) : List Nat → List Nat
  | [] => []
  | s :: l => start s :: numbered (fun t => if t = s then start s + 1 else start t) l

@[simp] theorem length_numbered (start : Nat → Nat) (l : List Nat) : (numbered start l).length = l.length := by
  induction l generalizing start with
  | nil => rfl
  | cons s l ih => rw [numbered, List.length_cons, ih, List.length_cons]

theorem getElem_numbered (start : Nat → Nat) (l : List Nat) (h : u < l.length) {hu : u < (numbered start l).length} :
    (numbered start l)[u] = start l[u] + (l.take u).count l[u] := by
  induction l generalizing start u with
  | nil => cases h
  | cons s l ih =>
    rcases u with _ | u
    · simp [numbered]
    · simp only [numbered, List.getElem_cons_succ, List.take_succ_cons]
      grind

/-- Later occurrences of a symbol get larger numbers. -/
theorem exists_of_lt_count (h : k < l.count s) :
    ∃ u, ∃ hu : u < l.length, l[u] = s ∧ (l.take u).count s = k := by
  induction l generalizing k with
  | nil => cases h
  | cons x l ih =>
    by_cases hx : x = s
    · subst hx
      rcases k with _ | k
      · exact ⟨0, by simp, rfl, by simp⟩
      · obtain ⟨u, hu, h1, h2⟩ := ih (k := k) (by rw [List.count_cons_self] at h; omega)
        exact ⟨u + 1, by simpa using hu, h1, by simp_all⟩
    · obtain ⟨u, hu, h1, h2⟩ := ih (k := k) (by rwa [List.count_cons_of_ne hx] at h)
      exact ⟨u + 1, by simpa using hu, h1, by simp_all⟩

theorem count_take_lt (h : u < l.length) : (l.take u).count l[u] < l.count l[u] := by
  have hsplit := congrArg (List.count l[u]) (List.take_append_drop u l)
  grind [List.drop_eq_getElem_cons]

theorem count_take_inj (hu : u < l.length) (hv : v < l.length) (hs : l[u] = l[v])
    (h : (l.take u).count l[u] = (l.take v).count l[v]) : u = v := by
  have hlt {u v : Nat} (hu : u < l.length) (hv : v < l.length) (hs : l[u] = l[v]) (huv : u < v) :
      (l.take u).count l[u] < (l.take v).count l[v] := by
    have h1 := count_take_lt (l := l.take v) (u := u) (by rw [List.length_take]; omega)
    rw [List.getElem_take, List.take_take, show min u v = u from Nat.min_eq_left (le_of_lt huv)] at h1
    rwa [← hs]
  grind

theorem foldl_getD {β : Type} (b : Array β) (x : β) (P : Nat → α → Prop) (f : α → β → α) (a : α) (h0 : P 0 a)
    (hstep : ∀ k a, k < b.size → P k a → P (k + 1) (f a (b.getD k x))) : P b.size (b.foldl f a) := by
  simp_all [Array.foldl_induction]

theorem getD_push_lt (a : Array α) (v x : α) (h : a.size = k) (hs : s < k) : (a.push v).getD s x = a.getD s x := by
  simp [Array.getD_eq_getD_getElem?, Array.getElem?_push, show s ≠ a.size by omega]

theorem getD_push_self (a : Array α) (v x : α) (h : a.size = k) : (a.push v).getD k x = v := by
  subst h
  simp [Array.getD_eq_getD_getElem?]

theorem getD_setIfInBounds (a : Array Nat) (s v : Nat) (hs : s < a.size) :
    (fun t => (a.setIfInBounds s v).getD t 0) = fun t => if t = s then v else a.getD t 0 := by
  funext t
  by_cases ht : t = s
  · simp_all
  simp_all [Ne.symm]

/-! ### Tables that match -/

/-- What the encoder writes for a symbol, the decoder takes for it; states agree in their low bits. -/
structure Matches (e : Encoder) (t : Decoder) (s : Nat) : Prop where
  log : e.log = t.log
  log_le : e.log ≤ maxLog
  init : e.init s ∈ e.states ∧ t.symbol (e.init s % 2 ^ e.log) = s
  encode : ∀ x ∈ e.states, ∃ n ≤ e.log, ∃ y ∈ e.states, (∀ w, e.encode w x s = (w.addNat x n, y)) ∧
    t.symbol (y % 2 ^ e.log) = s ∧ t.bits.getD (y % 2 ^ e.log) 0 = n ∧ t.bases.getD (y % 2 ^ e.log) 0 + x % 2 ^ n = x % 2 ^ e.log

namespace Matches

variable {e : Encoder} {t : Decoder} {s : Nat}

theorem next (h : Matches e t s) (hx : x ∈ e.states) (hw : w.Sound) :
    ∃ w' y, e.encode w x s = (w', y) ∧ w'.Sound ∧ y ∈ e.states ∧ t.symbol (y % 2 ^ e.log) = s ∧
      ∀ c : BitCursor, c.Over w' → ∃ c' : BitCursor, t.next (y % 2 ^ e.log) c = (x % 2 ^ e.log, c') ∧ c'.Over w := by
  obtain ⟨n, hn, y, hy, he, hs, hb, hbase⟩ := h.encode x hx
  have hmost : n ≤ BitWriter.mostBits := by
    have := h.log_le
    have hmax : maxLog = 12 := rfl
    have hbits : BitWriter.mostBits = 56 := rfl
    omega
  refine ⟨w.addNat x n, y, he w, hw.addNat x hmost, hy, hs, fun c hc => ?_⟩
  obtain ⟨h1, h2⟩ := hc.peek hw hmost
  simp_all [Decoder.next]

theorem start (h : Matches e t s) (x : Nat) (hw : w.Sound) :
    (e.finish w x).Sound ∧
      ∀ c : BitCursor, c.Over (e.finish w x) → ∃ c' : BitCursor, t.init c = (x % 2 ^ e.log, c') ∧ c'.Over w := by
  have hmost : e.log ≤ BitWriter.mostBits := by
    have := h.log_le
    have hmax : maxLog = 12 := rfl
    have hbits : BitWriter.mostBits = 56 := rfl
    omega
  refine ⟨hw.addNat x hmost, fun c hc => ?_⟩
  obtain ⟨h1, h2⟩ := hc.peek hw hmost
  grind [Decoder.init.eq_1, log]

theorem single (s : Nat) : Matches (.single s) (.single s) s where
  log := rfl
  log_le := Nat.zero_le _
  init := by
    have h0 : (Encoder.single s).init s = 0 := by simp [Encoder.single, Encoder.init, Array.getD_eq_getD_getElem?]
    rw [h0]
    exact ⟨by simp [Encoder.single], rfl⟩
  encode := by
    intro x hx
    obtain rfl : x = 0 := by simpa [Encoder.single] using hx
    refine ⟨0, Nat.zero_le _, 0, by simp [Encoder.single], fun w => ?_, rfl, rfl, rfl⟩
    simp [Encoder.single, Encoder.encode]

end Matches

/-! ### The decoder's table -/

namespace Distribution

variable {d : Distribution}

/-- The number of a state among those of its symbol. -/
def turn (d : Distribution) (u : Nat) : Nat := d.share (d.spread.getD u 0) + (d.spread.toList.take u).count (d.spread.getD u 0)

theorem share_of_ge (hs : d.counts.size ≤ s) : d.share s = 0 := by
  simp_all [share, count]

theorem lt_size_of_mem_spread (h : d.Valid) (hs : s ∈ d.spread.toList) : s < d.counts.size := by
  have hpos := List.count_pos_iff.2 hs
  grind [count_spread, share_of_ge]

theorem foldl_decoder (log size : Nat) (l : List Nat) :
    ∀ (next bits bases : Array Nat), (∀ s ∈ l, s < next.size) →
      (l.foldl (fun (acc : Array Nat × Array Nat × Array Nat) s =>
        let (next, bits, bases) := acc
        let n := next.getD s 0
        let nb := log - highBit n
        (next.setIfInBounds s (n + 1), bits.push nb, bases.push (n * 2 ^ nb - size))) (next, bits, bases)).2 =
      (bits ++ ((numbered (next.getD · 0) l).map fun n => log - highBit n).toArray,
        bases ++ ((numbered (next.getD · 0) l).map fun n => n * 2 ^ (log - highBit n) - size).toArray) := by
  induction l with
  | nil => simp_all [numbered]
  | cons s l ih =>
    intro next bits bases hl
    rw [List.foldl_cons]
    rw [ih _ _ _ (fun t ht => by simpa using hl t (by simp [ht])), getD_setIfInBounds _ _ _ (hl s (by simp))]
    simp [numbered]

theorem decoder_spec (h : d.Valid) (hu : u < d.size) :
    d.decoder.symbol u = d.spread.getD u 0 ∧ d.decoder.bits.getD u 0 = d.log - highBit (d.turn u) ∧
      d.decoder.bases.getD u 0 = d.turn u * 2 ^ (d.log - highBit (d.turn u)) - d.size := by
  have hlen : u < d.spread.toList.length := by
    rw [Array.length_toList, size_spread h]
    exact hu
  have hfold := foldl_decoder d.log d.size d.spread.toList (d.counts.map fun c => if c = -1 then 1 else c.toNat) #[] #[]
    (fun s hs => by simp_all [lt_size_of_mem_spread])
  have hshare : (fun s => (d.counts.map fun c => if c = -1 then 1 else c.toNat).getD s 0) = d.share := by
    funext s
    have hge := h.ge s
    unfold share
    unfold count at hge ⊢
    rw [Array.getD_eq_getD_getElem?] at hge
    rw [Array.getD_eq_getD_getElem?, Array.getD_eq_getD_getElem?, Array.getElem?_map]
    generalize d.counts[s]? = c at hge ⊢
    rcases c with _ | c
    · rfl
    · grind
  rw [hshare, Array.foldl_toList] at hfold
  have hu' : u < (numbered d.share d.spread.toList).length := by simpa using hlen
  have hturn : (numbered d.share d.spread.toList)[u] = d.turn u := by
    have hget : d.spread.toList[u] = d.spread.getD u 0 := by
      simp [Array.getD_eq_getD_getElem?, show u < d.spread.size by simpa using hlen]
    rw [getElem_numbered _ _ hlen, turn, hget]
  unfold decoder
  dsimp only
  generalize d.spread.foldl _ _ = r at hfold ⊢
  obtain ⟨next, bits, bases⟩ := r
  refine ⟨rfl, ?_, ?_⟩
  · simp_all
  simp_all

/-! ### The encoder's table -/

/-- The states of the symbols before `s`. -/
def before (d : Distribution) (s : Nat) : Nat := ((List.range s).map d.share).sum

theorem before_succ (d : Distribution) (s : Nat) : d.before (s + 1) = d.before s + d.share s := by
  simp [before, List.range_succ]

theorem before_mono (d : Distribution) (h : s ≤ t) : d.before s ≤ d.before t := by
  induction h with
  | refl => exact le_rfl
  | step _ ih =>
    rw [before_succ]
    omega

theorem before_add_share_le (h : d.Valid) (s : Nat) : d.before s + d.share s ≤ d.size := by
  rw [← before_succ]
  rcases lt_or_ge s d.counts.size with hs | hs
  · have := d.before_mono (show s + 1 ≤ d.counts.size from hs)
    rwa [before, before, h.sum] at this
  · have hle (n : Nat) : d.before (d.counts.size + n) = d.size := by
      induction n with
      | zero => exact h.sum
      | succ n ih => rw [← add_assoc, before_succ, ih, share_of_ge (by omega), add_zero]
    have := hle (s + 1 - d.counts.size)
    grind

theorem cumulate_spec (d : Distribution) :
    (cumulate d.counts).size = d.counts.size ∧ ∀ s < d.counts.size, (cumulate d.counts).getD s 0 = d.before s := by
  have h := foldl_getD d.counts 0 (fun k (acc : Array Nat × Nat) => acc.2 = d.before k ∧ acc.1.size = k ∧ ∀ s < k, acc.1.getD s 0 = d.before s)
    (fun acc c => (acc.1.push acc.2, acc.2 + c.natAbs)) (#[], 0) ⟨rfl, rfl, nofun⟩ ?_
  · exact h.2
  · rintro k ⟨a, n⟩ hk ⟨h1, h2, h3⟩
    dsimp only at h1 h2 h3 ⊢
    refine ⟨by rw [before_succ, h1]; rfl, by rw [Array.size_push, h2], fun s hs => ?_⟩
    rcases Nat.lt_succ_iff_lt_or_eq.1 hs with hs | rfl
    · rw [getD_push_lt a n 0 h2 hs, h3 s hs]
    · rw [getD_push_self a n 0 h2, h1]

/-- The places of the states in the encoder's table: sorted by their symbols. -/
def placesOf (d : Distribution) : List Nat := numbered d.before d.spread.toList

theorem getElem_placesOf (h : d.Valid) (hu : u < d.size) (hu' : u < d.placesOf.length) :
    d.placesOf[u] = d.before (d.spread.getD u 0) + (d.spread.toList.take u).count (d.spread.getD u 0) := by
  have hlen : u < d.spread.toList.length := by
    rw [Array.length_toList, size_spread h]
    exact hu
  have hget : d.spread.toList[u] = d.spread.getD u 0 := by
    simp [Array.getD_eq_getD_getElem?, show u < d.spread.size by simpa using hlen]
  rw [← hget]
  exact getElem_numbered _ _ hlen

/-- Places of different symbols do not meet. -/
theorem before_inj (hi : i < d.share s) (hj : j < d.share t) (h : d.before s + i = d.before t + j) : s = t := by
  by_contra hne
  rcases lt_or_gt_of_ne hne with hlt | hlt
  · have := d.before_mono (show s + 1 ≤ t from hlt)
    rw [before_succ] at this
    omega
  · have := d.before_mono (show t + 1 ≤ s from hlt)
    rw [before_succ] at this
    omega

theorem count_take_lt_share (h : d.Valid) (hu : u < d.spread.toList.length) :
    (d.spread.toList.take u).count d.spread.toList[u] < d.share d.spread.toList[u] := by
  rw [← count_spread h]
  exact count_take_lt hu

theorem placesOf_spec (h : d.Valid) : d.placesOf.Nodup ∧ ∀ p ∈ d.placesOf, p < d.size := by
  constructor
  · refine List.nodup_iff_injective_get.2 fun ⟨u, hu⟩ ⟨v, hv⟩ he => ?_
    have hu' : u < d.spread.toList.length := by simpa [placesOf] using hu
    have hv' : v < d.spread.toList.length := by simpa [placesOf] using hv
    rw [List.get_eq_getElem, List.get_eq_getElem] at he
    unfold placesOf at he
    rw [getElem_numbered _ _ hu', getElem_numbered _ _ hv'] at he
    have hs := before_inj (count_take_lt_share h hu') (count_take_lt_share h hv') he
    rw [hs] at he
    have huv := count_take_inj hu' hv' hs (by rw [hs]; omega)
    exact Fin.ext huv
  · intro p hp
    obtain ⟨u, hu, rfl⟩ := List.getElem_of_mem hp
    have hu' : u < d.spread.toList.length := by simpa [placesOf] using hu
    have hp' : d.placesOf[u] = _ := getElem_numbered d.before d.spread.toList hu'
    have h1 := count_take_lt_share h hu'
    have h2 := before_add_share_le h d.spread.toList[u]
    omega

theorem foldl_states (size : Nat) (l : List Nat) :
    ∀ (states next : Array Nat) (u : Nat), (∀ s ∈ l, s < next.size) →
      (l.foldl (fun (acc : Array Nat × Array Nat × Nat) s =>
        let (states, next, u) := acc
        let at_ := next.getD s 0
        (states.setIfInBounds at_ (size + u), next.setIfInBounds s (at_ + 1), u + 1)) (states, next, u)).1 =
      enter states (numbered (next.getD · 0) l) (List.range' (size + u) l.length) := by
  induction l with
  | nil => simp_all [numbered]
  | cons s l ih =>
    intro states next u hl
    rw [List.foldl_cons]
    rw [ih _ _ _ (fun t ht => by simpa using hl t (by simp [ht])), getD_setIfInBounds _ _ _ (hl s (by simp)), numbered,
      List.length_cons, List.range'_succ, enter, add_assoc]

theorem encoder_states (h : d.Valid) :
    d.encoder.states = enter (Array.replicate d.size 0) d.placesOf (List.range' d.size d.size) := by
  obtain ⟨hsize, hcum⟩ := cumulate_spec d
  have hfold := foldl_states d.size d.spread.toList (Array.replicate d.size 0) (cumulate d.counts) 0
    (fun s hs => by rw [hsize]; exact lt_size_of_mem_spread h hs)
  have hnum (l : List Nat) (f g : Nat → Nat) (hl : ∀ s ∈ l, f s = g s) : numbered f l = numbered g l := by
    induction l generalizing f g with
    | nil => rfl
    | cons s l ih =>
      grind [numbered]
  rw [hnum _ _ d.before fun s hs => hcum s (lt_size_of_mem_spread h hs), Array.length_toList, size_spread h, add_zero,
    Array.foldl_toList] at hfold
  unfold encoder
  dsimp only
  generalize d.spread.foldl _ _ = r at hfold ⊢
  rw [hfold]
  rfl

theorem getD_states (h : d.Valid) (hk : k < d.share s) :
    ∃ u < d.size, d.encoder.states.getD (d.before s + k) 0 = d.size + u ∧ d.spread.getD u 0 = s ∧ d.turn u = d.share s + k := by
  obtain ⟨hn, hlt⟩ := placesOf_spec h
  obtain ⟨u, hu, hs, hcount⟩ := exists_of_lt_count (l := d.spread.toList) (s := s) (k := k) (by rwa [count_spread h])
  have hu' : u < d.size := by rwa [Array.length_toList, size_spread h] at hu
  have hget : d.spread.getD u 0 = s := by
    rw [← hs]
    simp [Array.getD_eq_getD_getElem?, show u < d.spread.size by simpa using hu]
  have hlen : d.placesOf.length = (List.range' d.size d.size).length := by simp [placesOf, size_spread h]
  have hmap := map_getD_enter (Array.replicate d.size 0) hn (by simpa using hlt) hlen
  have hu'' : u < d.placesOf.length := by simpa [placesOf, size_spread h] using hu'
  have hplace := getElem_placesOf h hu' hu''
  refine ⟨u, hu', ?_, hget, by rw [turn, hget, hcount]⟩
  have := congrArg (·[u]?) hmap
  simp only [List.getElem?_map] at this
  simp_all [encoder_states]

theorem mem_states (h : d.Valid) : x ∈ d.encoder.states ↔ d.size ≤ x ∧ x < 2 * d.size := by
  obtain ⟨hn, hlt⟩ := placesOf_spec h
  have hlen : d.placesOf.length = (List.range' d.size d.size).length := by simp [placesOf, size_spread h]
  have hperm : d.placesOf.Perm (List.range (Array.replicate d.size 0).size) := by
    rw [Array.size_replicate]
    exact (List.subperm_of_subset hn fun p hp => List.mem_range.2 (hlt p hp)).perm_of_length_le (by simp [hlen])
  grind [enter_perm, encoder_states, List.mem_range'_1]

/-- How many bits a transition to a symbol of share `n` writes at most. -/
def widest (log n : Nat) : Nat := log - highBit (n - 1)

/-- The entries of a symbol in the encoder's table. -/
structure EncoderEntry (d : Distribution) (s x : Nat) (y : Int) : Prop where
  delta : 0 < d.share s → x = widest d.log (d.share s) * 65536 - d.share s * 2 ^ widest d.log (d.share s)
  offset : 0 < d.share s → y = (d.before s : Int) - d.share s
  absent : d.share s = 0 → x = (d.log + 1) * 65536 - d.size

theorem encoder_entries (h : d.Valid) :
    d.encoder.delta.size = d.counts.size ∧
      ∀ s < d.counts.size, EncoderEntry d s (d.encoder.delta.getD s 0) (d.encoder.offset.getD s 0) := by
  have hfold := foldl_getD d.counts 0
    (fun k (acc : Array Nat × Array Int × Nat) => acc.2.2 = d.before k ∧ acc.1.size = k ∧ acc.2.1.size = k ∧
      ∀ s < k, EncoderEntry d s (acc.1.getD s 0) (acc.2.1.getD s 0))
    (fun acc c =>
      if c = 0 then (acc.1.push ((d.log + 1) * 65536 - d.size), acc.2.1.push 0, acc.2.2)
      else if c = -1 ∨ c = 1 then
        (acc.1.push (d.log * 65536 - d.size), acc.2.1.push ((acc.2.2 : Int) - 1), acc.2.2 + 1)
      else
        let n := c.toNat
        let out := d.log - highBit (n - 1)
        (acc.1.push (out * 65536 - n * 2 ^ out), acc.2.1.push ((acc.2.2 : Int) - n), acc.2.2 + n))
    (#[], #[], 0) ⟨rfl, rfl, rfl, fun _ hs => absurd hs (Nat.not_lt_zero _)⟩ ?_
  · exact ⟨hfold.2.1, hfold.2.2.2⟩
  · rintro k ⟨delta, offset, total⟩ hk ⟨h1, h2, h3, h4⟩
    dsimp only at h1 h2 h3 h4 ⊢
    rw [show d.counts.getD k 0 = d.count k from rfl]
    have hge := h.ge k
    -- one symbol more, whatever its entries are
    have hpush (x : Nat) (y : Int) (z : Nat) (hz : z = total + d.share k) (hxy : EncoderEntry d k x y) :
        z = d.before (k + 1) ∧ (delta.push x).size = k + 1 ∧ (offset.push y).size = k + 1 ∧
          ∀ s < k + 1, EncoderEntry d s ((delta.push x).getD s 0) ((offset.push y).getD s 0) := by
      refine ⟨by rw [before_succ, hz, h1], by rw [Array.size_push, h2], by rw [Array.size_push, h3], fun s hs => ?_⟩
      rcases Nat.lt_succ_iff_lt_or_eq.1 hs with hs | rfl
      · rw [getD_push_lt _ _ _ h2 hs, getD_push_lt _ _ _ h3 hs]
        exact h4 s hs
      · rw [getD_push_self _ _ _ h2, getD_push_self _ _ _ h3]
        exact hxy
    by_cases h0 : d.count k = 0
    · rw [if_pos h0]
      have hshare : d.share k = 0 := by rw [share, h0]; rfl
      exact hpush _ _ _ (by rw [hshare]; rfl)
        ⟨fun hpos => absurd hpos (by omega), fun hpos => absurd hpos (by omega), fun _ => rfl⟩
    rw [if_neg h0]
    by_cases hone : d.count k = -1 ∨ d.count k = 1
    · rw [if_pos hone]
      have hshare : d.share k = 1 := by
        rw [share]
        omega
      refine hpush _ _ _ (by rw [hshare]) ⟨fun _ => ?_, fun _ => ?_, fun hpos => absurd hpos (by omega)⟩
      · rw [hshare, widest, show highBit (1 - 1) = 0 from rfl, Nat.sub_zero, one_mul]
        rfl
      · rw [hshare, h1]
        rfl
    · rw [if_neg hone]
      have hshare : (d.count k).toNat = d.share k := by
        rw [share]
        omega
      refine hpush _ _ _ (by rw [hshare]) ⟨fun _ => ?_, fun _ => ?_, fun hpos => ?_⟩
      · rw [hshare]
        rfl
      · rw [hshare, h1]
      · omega

theorem lt_size_of_share (hs : 0 < d.share s) : s < d.counts.size := by
  grind [share_of_ge]

theorem encoder_spec (h : d.Valid) (hs : 0 < d.share s) :
    d.encoder.delta.getD s 0 = widest d.log (d.share s) * 65536 - d.share s * 2 ^ widest d.log (d.share s) ∧
      d.encoder.offset.getD s 0 = (d.before s : Int) - d.share s := by
  have hentry := (encoder_entries h).2 s (lt_size_of_share hs)
  exact ⟨hentry.delta hs, hentry.offset hs⟩

/-- A symbol without a share costs more than any other. -/
theorem share_pos_of_cost (h : d.Valid) (hs : s ≤ d.encoder.maxSymbol) (hne : d.counts.size ≠ 0)
    (hcost : d.encoder.cost s < (d.encoder.log + 1) * 256) : 0 < d.share s := by
  obtain ⟨hsize, hentry⟩ := encoder_entries h
  rw [Encoder.maxSymbol, hsize] at hs
  refine pos_of_ne_zero fun h0 => ne_of_lt hcost ?_
  have hlog : d.encoder.log = d.log := rfl
  have hle : 2 ^ d.log ≤ 2 ^ maxLog := Nat.pow_le_pow_right (by omega) h.log_le
  have hpos := Nat.two_pow_pos d.log
  have hmax : 2 ^ maxLog = 4096 := rfl
  have hleast : ((d.log + 1) * 65536 - 2 ^ d.log) / 65536 = d.log := by omega
  rw [Encoder.cost, (hentry s (by omega)).absent h0, hlog, size, hleast]
  rw [show (d.log + 1) * 65536 - ((d.log + 1) * 65536 - 2 ^ d.log + 2 ^ d.log) = 0 by omega, zero_mul, Nat.zero_div, Nat.sub_zero]

end Distribution

/-! ### Transitions -/

open Distribution

theorem pow_le_div_mul (hx : 2 ^ log ≤ x) (hn : n ≤ log) : 2 ^ log ≤ x / 2 ^ n * 2 ^ n := by
  have hsplit : 2 ^ log = 2 ^ (log - n) * 2 ^ n := by
    rw [← pow_add]
    congr 1
    omega
  simp_all [Nat.le_div_iff_mul_le]

theorem highBit_div_pow (hx : 2 ^ log ≤ x) (hx' : x < 2 * 2 ^ log) (hn : n ≤ log) :
    log - highBit (x / 2 ^ n) = n := by
  have hsplit : 2 ^ log = 2 ^ (log - n) * 2 ^ n := by
    rw [← pow_add]
    congr 1
    omega
  have hlow : 2 ^ (log - n) ≤ x / 2 ^ n := by
    have := pow_le_div_mul hx hn
    rw [hsplit] at this
    exact Nat.le_of_mul_le_mul_right this (Nat.two_pow_pos _)
  have hhigh : x / 2 ^ n < 2 ^ (log - n + 1) := by
    rw [Nat.div_lt_iff_lt_mul (Nat.two_pow_pos _), pow_succ, Nat.mul_right_comm, ← hsplit]
    omega
  rw [highBit, (Nat.log2_eq_iff (by omega)).2 ⟨hlow, hhigh⟩]
  omega

/-- The widest transition to a symbol of share `n` starts from `n` times its span. -/
theorem widest_spec (hn : 2 ≤ n) (hle : n ≤ 2 ^ log) :
    0 < widest log n ∧ widest log n ≤ log ∧ 2 ^ log ≤ n * 2 ^ widest log n ∧ n * 2 ^ (widest log n - 1) ≤ 2 ^ log := by
  obtain ⟨h1, h2⟩ := (Nat.log2_eq_iff (n := n - 1) (by omega)).1 rfl
  have hlt : highBit (n - 1) < log := by
    rw [highBit, Nat.log2_lt (by omega)]
    omega
  unfold widest
  rw [highBit] at *
  generalize (n - 1).log2 = h at h1 h2 hlt
  have e1 : 2 ^ log = 2 ^ h * 2 ^ (log - h) := by
    rw [← pow_add]
    congr 1
    omega
  have e2 : 2 ^ log = 2 ^ (h + 1) * 2 ^ (log - h - 1) := by
    rw [← pow_add]
    congr 1
    omega
  refine ⟨by omega, by omega, ?_, ?_⟩
  · rw [e1]
    exact Nat.mul_le_mul_right _ (by omega)
  · rw [e2]
    exact Nat.mul_le_mul_right _ (by omega)

/-- The bits that a transition writes leave the number of the state that it goes to. -/
theorem transition (hlog : log ≤ maxLog) (hn : 0 < n) (hle : n ≤ 2 ^ log) (hx : 2 ^ log ≤ x) (hx' : x < 2 * 2 ^ log) :
    ∃ out ≤ log, (x + (widest log n * 65536 - n * 2 ^ widest log n)) / 65536 = out ∧ n ≤ x / 2 ^ out ∧ x / 2 ^ out < 2 * n ∧
      log - highBit (x / 2 ^ out) = out := by
  have hsize : 2 ^ log ≤ 2 ^ 12 := Nat.pow_le_pow_right (by omega) hlog
  rcases lt_or_ge n 2 with h | h
  · obtain rfl : n = 1 := by omega
    have hw : widest log 1 = log := rfl
    rw [hw, one_mul]
    have hout : (x + (log * 65536 - 2 ^ log)) / 65536 = log := by
      rcases Nat.eq_zero_or_pos log with rfl | hpos
      · omega
      · omega
    refine ⟨log, le_rfl, hout, ?_, ?_, highBit_div_pow hx hx' le_rfl⟩
    · rwa [Nat.le_div_iff_mul_le (Nat.two_pow_pos _), one_mul]
    · rwa [Nat.div_lt_iff_lt_mul (Nat.two_pow_pos _)]
  · obtain ⟨hpos, hwle, hlow, hhigh⟩ := widest_spec h hle
    have hdouble : n * 2 ^ widest log n = 2 * (n * 2 ^ (widest log n - 1)) := by
      rw [Nat.mul_left_comm, ← Nat.pow_succ', Nat.succ_eq_add_one, Nat.sub_add_cancel hpos]
    generalize widest log n = o at *
    rcases lt_or_ge x (n * 2 ^ o) with hlt | hge
    · refine ⟨o - 1, by omega, by omega, ?_, ?_, highBit_div_pow hx hx' (by omega)⟩
      · rw [Nat.le_div_iff_mul_le (Nat.two_pow_pos _)]
        omega
      simp_all [Nat.div_lt_iff_lt_mul, mul_assoc]
    · refine ⟨o, hwle, by omega, ?_, ?_, highBit_div_pow hx hx' hwle⟩
      · simp_all [Nat.le_div_iff_mul_le]
      · rw [Nat.div_lt_iff_lt_mul (Nat.two_pow_pos _), mul_assoc]
        omega

namespace Distribution

variable {d : Distribution} {s : Nat}

theorem share_le (h : d.Valid) (s : Nat) : d.share s ≤ 2 ^ d.log := le_trans (Nat.le_add_left _ _) (before_add_share_le h s)

theorem decode_state (h : d.Valid) (hk : k < d.share s) :
    ∃ y ∈ d.encoder.states, d.encoder.states.getD (d.before s + k) 0 = y ∧ d.decoder.symbol (y % 2 ^ d.log) = s ∧
      d.decoder.bits.getD (y % 2 ^ d.log) 0 = d.log - highBit (d.share s + k) ∧
      d.decoder.bases.getD (y % 2 ^ d.log) 0 = (d.share s + k) * 2 ^ (d.log - highBit (d.share s + k)) - 2 ^ d.log := by
  obtain ⟨u, hu, hget, hs, hturn⟩ := getD_states h hk
  obtain ⟨h1, h2, h3⟩ := decoder_spec h hu
  have hmod : (d.size + u) % 2 ^ d.log = u := by
    rw [show d.size = 2 ^ d.log from rfl, Nat.add_mod_left]
    exact Nat.mod_eq_of_lt hu
  refine ⟨d.size + u, (mem_states h).2 (by omega), hget, ?_⟩
  rw [hmod, h1, h2, h3, hturn]
  exact ⟨hs, rfl, rfl⟩

theorem place_eq {b m : Nat} (h : n ≤ m) : ((m : Int) + ((b : Int) - n)).toNat = b + (m - n) := by
  omega

variable (h : d.Valid) (hs : 0 < d.share s)

include h hs

/-- A symbol is coded first from the lowest of its states. -/
theorem encoder_init : d.encoder.init s = d.encoder.states.getD (d.before s + 0) 0 := by
  obtain ⟨hdelta, hoffset⟩ := encoder_spec h hs
  have hlog := h.log_le
  have hleast := h.le_log
  have hle := share_le h s
  have hmin : minLog = 5 := rfl
  have hsize : 2 ^ d.log ≤ 2 ^ 12 := Nat.pow_le_pow_right (by omega) hlog
  have hwide : 0 < widest d.log (d.share s) ∧ d.share s * 2 ^ widest d.log (d.share s) ≤ 2 * 2 ^ d.log := by
    rcases lt_or_ge (d.share s) 2 with hlt | hge
    · rw [show d.share s = 1 by omega, show widest d.log 1 = d.log from rfl]
      omega
    · obtain ⟨h1, -, -, h2⟩ := widest_spec hge hle
      have hdouble : 2 ^ widest d.log (d.share s) = 2 * 2 ^ (widest d.log (d.share s) - 1) := by
        rw [← Nat.pow_succ', Nat.succ_eq_add_one, Nat.sub_add_cancel h1]
      simp_all [mul_left_comm]
  unfold Encoder.init
  dsimp only
  rw [hdelta, hoffset]
  generalize widest d.log (d.share s) = o at hwide ⊢
  have hout : (o * 65536 - d.share s * 2 ^ o + 32768) / 65536 = o := by omega
  rw [hout, show o * 65536 - (o * 65536 - d.share s * 2 ^ o) = d.share s * 2 ^ o by omega, Nat.mul_div_cancel _ (Nat.two_pow_pos _),
    place_eq le_rfl, Nat.sub_self]

/-- Every symbol with a share can be coded and decoded. -/
theorem Valid.matches_encoder : Matches d.encoder d.decoder s where
  log := rfl
  log_le := h.log_le
  init := by
    obtain ⟨y, hy, hget, h1, -, -⟩ := decode_state h (s := s) (k := 0) hs
    rw [encoder_init h hs, hget]
    exact ⟨hy, h1⟩
  encode := by
    intro x hx
    obtain ⟨hx1, hx2⟩ := (mem_states h).1 hx
    obtain ⟨hdelta, hoffset⟩ := encoder_spec h hs
    obtain ⟨out, hle, hout, hlow, hhigh, hbit⟩ := transition h.log_le hs (share_le h s) hx1 hx2
    obtain ⟨y, hy, hget, h1, h2, h3⟩ := decode_state h (s := s) (k := x / 2 ^ out - d.share s) (by omega)
    rw [Nat.add_sub_cancel' hlow] at h2 h3
    rw [hbit] at h2 h3
    refine ⟨out, hle, y, hy, fun w => ?_, h1, h2, ?_⟩
    · unfold Encoder.encode
      dsimp only
      rw [hdelta, hoffset, hout, place_eq hlow, hget]
    · show d.decoder.bases.getD (y % 2 ^ d.log) 0 + x % 2 ^ out = x % 2 ^ d.log
      have hdiv := Nat.div_add_mod x (2 ^ out)
      rw [mul_comm] at hdiv
      have hmod : x % 2 ^ d.log = x - 2 ^ d.log := by
        change 2 ^ d.log ≤ x at hx1
        rw [Nat.mod_eq_sub_mod hx1]
        exact Nat.mod_eq_of_lt (by change x < 2 * 2 ^ d.log at hx2; omega)
      have hspan : 2 ^ d.log ≤ x / 2 ^ out * 2 ^ out := pow_le_div_mul hx1 hle
      omega

/-- A transition from a symbol's first state needs bits, unless all states are the symbol's. -/
theorem bits_init_pos (hlt : d.share s < 2 ^ d.log) :
    0 < d.decoder.bits.getD (d.encoder.init s % 2 ^ d.log) 0 := by
  obtain ⟨y, -, hget, -, h2, -⟩ := decode_state h (s := s) (k := 0) hs
  have hhigh : highBit (d.share s) < d.log := by
    rw [highBit, Nat.log2_lt (by omega)]
    exact hlt
  simp_all [encoder_init]

end Distribution

end ZstCodec.Fse
