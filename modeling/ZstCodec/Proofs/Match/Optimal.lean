import ZstCodec.Proofs.Match.Tree
import ZstCodec.Proofs.Match.LongDistance
import ZstCodec.Match.Optimal

/-! # The cheapest parse explains its blocks

A stretch is laid out place by place. The nodes before the place at hand are *settled*: each has the last match on the
way to it, from a settled node, or none. The nodes ahead are *open*: they have a match from a settled node, or are too
dear to stay, since a way over literals alone is never as dear as `dearest`. The sequences read off backwards then
explain the stretch. -/

namespace ZstCodec.Match

open Prices

variable {ahead : Ahead} {found : Array Best} {price : Int} {code length : Nat} {prices : Prices} {reps : Reps}

/-! ### Prices -/

theorem weight_lt (fine : Bool) (n : Nat) : weight fine n < 2 ^ 15 := by
  unfold weight
  generalize n.toUInt64 + 1 = s
  have hs : s.toNat < 2 ^ (Nat.log2 s.toNat + 1) := Nat.lt_log2_self
  have hh : s.log2.toNat = Nat.log2 s.toNat := rfl
  have hlog : Nat.log2 s.toNat < 64 := by
    rcases Nat.eq_zero_or_pos s.toNat with h | h
    · rw [h]
      decide
    · exact (Nat.log2_lt (by omega)).2 s.toNat_lt
  have hwhole : (s.log2 <<< 8).toNat ≤ 63 * 256 := by
    rw [UInt64.toNat_shiftLeft, hh, show (8 : UInt64).toNat % 64 = 8 from rfl, Nat.shiftLeft_eq]
    exact le_trans (Nat.mod_le _ _) (by omega)
  have hpart : ((s <<< 8) >>> s.log2).toNat < 512 := by
    rw [UInt64.toNat_shiftRight, UInt64.toNat_shiftLeft, hh, Nat.mod_eq_of_lt hlog, Nat.shiftRight_eq_div_pow,
      show (8 : UInt64).toNat % 64 = 8 from rfl, Nat.shiftLeft_eq, Nat.div_lt_iff_lt_mul (Nat.two_pow_pos _)]
    rw [pow_succ] at hs
    exact lt_of_le_of_lt (Nat.mod_le _ _) (by omega)
  grind [UInt64.toNat_add]

/-- The weights that prices are counted from stay small. -/
def Prices.Settled (p : Prices) : Prop := p.literal.base < 2 ^ 15 ∧ p.litLength.base < 2 ^ 15

theorem Prices.settled_settle (p : Prices) (fine : Bool) : (p.settle fine).Settled := ⟨weight_lt _ _, weight_lt _ _⟩

theorem Prices.Settled.literalPrice_le {p : Prices} (h : p.Settled) (fine : Bool) (byte : Nat) :
    p.literalPrice fine byte ≤ 2 ^ 15 := by
  have := h.1
  grind [literalPrice]

/-- The price of a number of literals. -/
theorem Prices.Settled.litLengthPrice_bounds {p : Prices} (h : p.Settled) (fine : Bool) (n : Nat) :
    -2 ^ 15 ≤ p.litLengthPrice fine n ∧ p.litLengthPrice fine n ≤ 2 ^ 15 + 2 ^ 13 := by
  have hb := h.2
  have hbits (code : Nat) : Sequence.litLengthBits.getD code 0 ≤ 16 := by
    rcases lt_or_ge code 36 with hlt | hge
    · exact (by decide : ∀ c < 36, Sequence.litLengthBits.getD c 0 ≤ 16) code hlt
    · rw [Array.getD_eq_getD_getElem?, Array.getElem?_eq_none (by exact hge)]
      decide
  unfold litLengthPrice Tally.price
  dsimp only
  generalize Sequence.litLengthCode (if n = 131072 then n - 1 else n) = code
  have hw := weight_lt fine (p.litLength.counts.getD code 0)
  have hp : bitPrice = 256 := rfl
  grind

namespace Optimal

/-! ### Nodes -/

section

variable {nodes : Array Node} {i k : Nat}

theorem nodeAt_modify_ne (nodes : Array Node) (f : Node → Node) (h : i ≠ k) : nodeAt (nodes.modify i f) k = nodeAt nodes k := by
  simp_all [nodeAt, Array.getElem?_modify]

theorem nodeAt_modify_self (nodes : Array Node) (f : Node → Node) (h : i < nodes.size) : nodeAt (nodes.modify i f) i = f (nodeAt nodes i) := by
  simp only [nodeAt, Array.getD_eq_getD_getElem?, Array.getElem?_modify, if_true, Array.getElem?_eq_getElem h,
    Option.map_some, Option.getD_some]

theorem nodeAt_set_ne (nodes : Array Node) (n : Node) (h : i ≠ k) : nodeAt (nodes.setIfInBounds i n) k = nodeAt nodes k := by
  simp_all [nodeAt]

theorem nodeAt_set (nodes : Array Node) (n : Node) (h : i < nodes.size) :
    nodeAt (nodes.setIfInBounds i n) = Function.update (nodeAt nodes) i n := by
  funext k
  by_cases hk : k = i
  · simp_all [nodeAt]
  simp_all [nodeAt_set_ne, Ne.symm]

end

/-- A stretch: where it starts, the literals before it, and what is remembered there. -/
structure Stretch where
  b : ByteArray
  low : Nat
  window : Nat
  stop : Nat
  start : Nat
  literals : Nat
  reps : Reps

/-- What is remembered behind a match with the code `code` that starts at a node. -/
abbrev told (n : Node) (code : Nat) : Reps := n.reps.after n.literals code

/-- A match of `length` bytes from the place `k` on, which has the node `n`. -/
def Leads (z : Stretch) (n : Node) (k length code : Nat) : Prop :=
  Tree.Fitting z.b z.low z.window z.stop n.reps (n.literals = 0) (z.start + k) ⟨length, code⟩

/-- The last match on the way to the place `k` starts at `s`. -/
structure Arrives (z : Stretch) (N : Nat → Node) (k s : Nat) : Prop where
  start : s + (N k).length + (N k).literals = k
  leads : Leads z (N s) s (N k).length (N k).code

/-- A node tells the way to its place: over literals alone, or by a match. -/
def Settled (z : Stretch) (N : Nat → Node) (k : Nat) : Prop :=
  ((N k).length = 0 ∧ (N k).literals = z.literals + k ∧ (N k).reps = z.reps) ∨
    ∃ s, Arrives z N k s ∧ (N k).reps = told (N s) (N k).code

/-- A node ahead of `cur` is too dear to stay, or has a match that starts before `cur`. -/
def Open (z : Stretch) (N : Nat → Node) (cur k : Nat) : Prop :=
  ((N k).price = dearest ∧ 0 < (N k).literals) ∨
    ∃ s < cur, Arrives z N k s ∧ (((N k).literals = 0 ∧ k < stretchSize) ∨
      (0 < (N k).literals ∧ (N k).reps = told (N s) (N k).code))

/-- What one more place costs at most. -/
def placePrice : Int := 2 ^ 17

/-- The nodes of a stretch that is laid out up to `last`, and settled before `cur`. -/
structure Laid (z : Stretch) (nodes : Array Node) (cur last : Nat) : Prop where
  size : stretchSize + 3 ≤ nodes.size
  pos : 0 < cur
  le : cur ≤ last + 1
  last_le : last ≤ stretchSize
  settled : ∀ {k}, k < cur → Settled z (nodeAt nodes) k
  price : ∀ {k}, k < cur → (nodeAt nodes k).price ≤ (k + 1) * placePrice
  opened : ∀ {k}, cur ≤ k → k ≤ last → Open z (nodeAt nodes) cur k

section

variable {z : Stretch} {N N' : Nat → Node} {nodes nodes' : Array Node} {cur last last' k s : Nat}

theorem Arrives.lt (h : Arrives z N k s) : s < k := by
  have h1 := h.start
  have h2 : 3 ≤ (N k).length := h.leads.least
  omega

/-- Only the node itself and the one where its match starts count. -/
theorem Arrives.congr (h : Arrives z N k s) (hs : N' s = N s) (hk : N' k = N k) : Arrives z N' k s :=
  ⟨by rw [hk]; exact h.start, by rw [hs, hk]; exact h.leads⟩

theorem Settled.congr (h : Settled z N k) (he : ∀ x ≤ k, N' x = N x) : Settled z N' k := by
  rcases h with h | ⟨s, h1, h2⟩
  · exact .inl (by rw [he k (le_refl k)]; exact h)
  · have hs := he s (le_of_lt h1.lt)
    have hk := he k (le_refl k)
    exact .inr ⟨s, h1.congr hs hk, by rw [hs, hk]; exact h2⟩

theorem Open.congr (h : Open z N cur k) (he : ∀ x < cur, N' x = N x) (hk : N' k = N k) : Open z N' cur k := by
  rcases h with h | ⟨s, hs, h1, h2⟩
  · exact .inl (by rw [hk]; exact h)
  · exact .inr ⟨s, hs, h1.congr (he s hs) hk, by rw [hk, he s hs]; exact h2⟩

theorem Open.mono (h : Open z N cur k) : Open z N (cur + 1) k := by
  rcases h with h | ⟨s, hs, h⟩
  · exact .inl h
  · exact .inr ⟨s, by omega, h⟩

theorem Open.of_match {n : Node} (hN : N k = { n with price, length, code, literals := 0 }) (hk : cur + length = k)
    (hlt : k < stretchSize) (h : Leads z (N cur) cur length code) : Open z N (cur + 1) k :=
  .inr ⟨cur, Nat.lt_succ_self _, ⟨by rw [hN]; exact hk, by rw [hN]; exact h⟩, .inl ⟨by rw [hN], hlt⟩⟩

theorem Laid.change (h : Laid z nodes cur last) (hs : nodes'.size = nodes.size) (hlast : last ≤ last')
    (hle : last' ≤ stretchSize) (hb : ∀ {x}, x < cur → nodeAt nodes' x = nodeAt nodes x)
    (ho : ∀ {k}, cur ≤ k → k ≤ last' → Open z (nodeAt nodes') cur k) : Laid z nodes' cur last' := by
  refine ⟨by rw [hs]; exact h.size, h.pos, by have := h.le; omega, hle, fun hk => ?_, fun hk => ?_, ho⟩
  · exact (h.settled hk).congr fun x hx => hb (by omega)
  · rw [hb hk]
    exact h.price hk

/-- The place `cur` is settled, and what lies ahead of it is open. -/
theorem Laid.advance (h : Laid z nodes cur last) (hcur : cur ≤ last) (hs : nodes'.size = nodes.size) (hlast : last ≤ last')
    (hle : last' ≤ stretchSize) (hb : ∀ {x}, x < cur → nodeAt nodes' x = nodeAt nodes x)
    (hset : Settled z (nodeAt nodes') cur) (hp : (nodeAt nodes' cur).price ≤ (cur + 1) * placePrice)
    (ho : ∀ {k}, cur < k → k ≤ last' → Open z (nodeAt nodes') cur k) : Laid z nodes' (cur + 1) last' := by
  refine ⟨by rw [hs]; exact h.size, Nat.succ_pos _, by omega, hle, fun {k} hk => ?_, fun {k} hk => ?_,
    fun hk hkl => (ho hk hkl).mono⟩
  · rcases Nat.lt_succ_iff_lt_or_eq.1 hk with hk | rfl
    · exact (h.settled hk).congr fun x hx => hb (by omega)
    · exact hset
  · rcases Nat.lt_succ_iff_lt_or_eq.1 hk with hk | rfl
    · rw [hb hk]
      exact h.price hk
    · exact hp

theorem Laid.congr (h : Laid z nodes cur last) (hs : nodes'.size = nodes.size)
    (he : ∀ {k}, k ≤ last → nodeAt nodes' k = nodeAt nodes k) : Laid z nodes' cur last := by
  have hle := h.le
  exact h.change hs le_rfl h.last_le (fun hx => he (by omega)) fun hk hkl =>
    (h.opened hk hkl).congr (fun x hx => he (by omega)) (he hkl)

end

/-! ### Going one place forward -/

/-- Settled, but for what is remembered behind a match. -/
def Ready (z : Stretch) (N : Nat → Node) (k : Nat) : Prop :=
  Settled z N k ∨ (N k).literals = 0 ∧ ∃ s, Arrives z N k s

/-- The nodes after the place `cur` has been compared with one more literal. -/
structure Extended (z : Stretch) (nodes nodes' : Array Node) (cur last last' : Nat) : Prop where
  size : nodes'.size = nodes.size
  le_last : last ≤ last'
  last_le : last' ≤ stretchSize
  before : ∀ {x}, x < cur → nodeAt nodes' x = nodeAt nodes x
  price : (nodeAt nodes' cur).price ≤ (cur + 1) * placePrice
  ready : Ready z (nodeAt nodes') cur
  opened : ∀ {k}, cur < k → k ≤ last' → Open z (nodeAt nodes') cur k

section

variable {z : Stretch} {N : Nat → Node} {nodes nodes' : Array Node} {s : Scan} {cur last last' x : Nat}

/-- One more literal keeps the price in bounds. -/
theorem price_literal_le (hs : s.prices.Settled) (ip n : Nat) (h : price ≤ cur * placePrice) :
    price + s.literal ip + s.literalsStep n ≤ (cur + 1) * placePrice := by
  have h1 := hs.literalPrice_le s.fine (natAt s.b ip)
  have h2 := hs.litLengthPrice_bounds s.fine n
  have h3 := hs.litLengthPrice_bounds s.fine (n - 1)
  have e : ((cur : Int) + 1) * placePrice = cur * placePrice + placePrice := by ring
  unfold Scan.literal Scan.literalsStep Scan.literals
  unfold placePrice at h ⊢
  omega

theorem lt_dearest (h : cur ≤ stretchSize) : (cur + 1) * placePrice < dearest := by
  have h : (cur : Int) ≤ 4096 := by exact_mod_cast h
  unfold placePrice dearest
  omega

theorem Settled.literal (h : Settled z N cur) (price : Int) :
    Settled z (Function.update N (cur + 1) { N cur with literals := (N cur).literals + 1, price }) (cur + 1) := by
  rcases h with ⟨h1, h2, h3⟩ | ⟨x, ⟨h1, h2⟩, h3⟩
  · refine .inl ?_
    grind
  · refine .inr ⟨x, ⟨?_, ?_⟩, ?_⟩ <;> rw [Function.update_self]
    · dsimp only
      omega
    · rwa [Function.update_of_ne (by omega)]
    grind

/-- What is remembered behind the match that leads to a place settles the place. -/
theorem Arrives.settled (h : Arrives z N cur x) :
    Settled z (Function.update N cur { N cur with reps := told (N x) (N cur).code }) cur := by
  have hlt := h.lt
  refine .inr ⟨x, ⟨?_, ?_⟩, ?_⟩ <;> rw [Function.update_self]
  · exact h.start
  · grind [leads]
  grind

/-- A match to the place before, with one literal behind it. -/
theorem Arrives.kept (h : Arrives z N (cur + 1) x) (h0 : (N (cur + 1)).literals = 0) (hx : N' x = N x) :
    Open z (Function.update N' (cur + 2) { N (cur + 1) with reps := told (N x) (N (cur + 1)).code, literals := 1, price })
      (cur + 1) (cur + 2) := by
  have hlt := h.lt
  have hstart := h.start
  refine .inr ⟨x, hlt, ⟨?_, ?_⟩, .inr ⟨?_, ?_⟩⟩ <;> rw [Function.update_self]
  · dsimp only
    omega
  · grind [leads]
  · exact one_pos
  grind

/-- The node next to the place may be written. -/
theorem Extended.write (h : Extended z nodes nodes' cur last last') (hsize : stretchSize + 3 ≤ nodes.size)
    (hcur : cur < stretchSize) (ho : Open z (Function.update (nodeAt nodes') (cur + 1) n) cur (cur + 1)) :
    Extended z nodes (nodes'.setIfInBounds (cur + 1) n) cur last (max last' (cur + 1)) := by
  have hs := h.size
  have hother {y : Nat} (hy : y ≠ cur + 1) : nodeAt (nodes'.setIfInBounds (cur + 1) n) y = nodeAt nodes' y :=
    nodeAt_set_ne _ _ (Ne.symm hy)
  have hl := h.le_last
  have hle := h.last_le
  refine ⟨by rw [Array.size_setIfInBounds, hs], by omega, by omega, fun hy => ?_, ?_, ?_, fun {k} hk hkl => ?_⟩
  · rw [hother (by omega)]
    exact h.before hy
  · rw [hother (by omega)]
    exact h.price
  · refine h.ready.imp (fun h => h.congr fun y hy => hother (by omega)) fun ⟨h0, y, hy⟩ => ?_
    have := hy.lt
    exact ⟨by rw [hother (by omega)]; exact h0, y, hy.congr (hother (by omega)) (hother (by omega))⟩
  · by_cases hkc : k = cur + 1
    · grind [nodeAt_set]
    · exact (h.opened hk (by omega)).congr (fun y hy => hother (by omega)) (hother hkc)

theorem extend_extended (hs : s.prices.Settled) (h : Laid z nodes cur last) (hcur : cur ≤ last) (ip : Nat) :
    Extended z nodes (extend s ip cur last nodes).1 cur last (extend s ip cur last nodes).2 := by
  have hpos := h.pos
  have hll := h.last_le
  have hsz := h.size
  obtain ⟨c, rfl⟩ : ∃ c, cur = c + 1 := ⟨cur - 1, by omega⟩
  have hprice : (nodeAt nodes c).price + s.literal (ip + (c + 1) - 1) + s.literalsStep ((nodeAt nodes c).literals + 1) ≤
      ((c + 1 : Nat) + 1) * placePrice :=
    price_literal_le hs _ _ (by have := h.price (Nat.lt_succ_self c); exact_mod_cast this)
  have hopen := h.opened le_rfl hcur
  unfold extend
  rw [show c + 1 - 1 = c from rfl]
  dsimp only
  generalize (nodeAt nodes c).price + s.literal (ip + (c + 1) - 1) + s.literalsStep ((nodeAt nodes c).literals + 1) = price
    at hprice ⊢
  have hsettled := (h.settled (Nat.lt_succ_self c)).literal price
  have hset := nodeAt_set (i := c + 1) nodes
    { nodeAt nodes c with literals := (nodeAt nodes c).literals + 1, price } (by omega)
  have hsize : (nodes.setIfInBounds (c + 1) { nodeAt nodes c with literals := (nodeAt nodes c).literals + 1, price }).size =
      nodes.size := Array.size_setIfInBounds
  rw [← hset] at hsettled
  generalize nodes.setIfInBounds (c + 1) { nodeAt nodes c with literals := (nodeAt nodes c).literals + 1, price } = nodes'
    at hset hsettled hsize ⊢
  have hne {x : Nat} (hx : x ≠ c + 1) : nodeAt nodes' x = nodeAt nodes x := by rw [hset, Function.update_of_ne hx]
  have hplain : Extended z nodes nodes' (c + 1) last last :=
    ⟨hsize, le_rfl, hll, fun hx => hne (by omega), by simp_all, .inl hsettled,
      fun hk hkl => (h.opened (by omega) hkl).congr (fun x hx => hne (by omega)) (hne (by omega))⟩
  split
  · split
    · rename_i hlit
      simp only [Bool.and_eq_true, decide_eq_true_eq, beq_iff_eq] at hlit
      split
      · -- the match given up is kept, with one literal behind it
        obtain ⟨x, hx, harr, hkind⟩ := hopen.resolve_left fun h => by omega
        have hlt := (hkind.resolve_right fun h => by omega).2
        have hstart := harr.start
        rw [show c + 1 - (nodeAt nodes (c + 1)).length = x by omega, hne (show x ≠ c + 1 by omega)]
        exact hplain.write hsz hlt (harr.kept hlit.1.1.2 (hne (by omega)))
      · exact hplain
    · exact hplain
  · refine ⟨rfl, le_rfl, hll, fun _ => rfl, by dsimp only; omega, ?_, fun hk hkl => h.opened (by omega) hkl⟩
    rcases hopen with ⟨h1, -⟩ | ⟨x, hx, harr, hkind⟩
    · have := lt_dearest (show c + 1 ≤ stretchSize by omega)
      omega
    · rcases hkind with ⟨h0, -⟩ | ⟨-, hr⟩
      · exact .inr ⟨h0, x, harr⟩
      · exact .inl (.inr ⟨x, harr, hr⟩)

/-- What is remembered at a place behind a match is filled in when the place is reached. -/
theorem Extended.laid (h : Laid z nodes cur last) (hcur : cur ≤ last) (he : Extended z nodes nodes' cur last last') :
    Laid z (recalled nodes' cur) (cur + 1) last' := by
  have hsz := h.size
  have hl := he.last_le
  have hle := he.le_last
  have hsize := he.size
  unfold recalled
  dsimp only
  split
  · obtain ⟨x, harr⟩ : ∃ x, Arrives z (nodeAt nodes') cur x := by
      rcases he.ready with (⟨-, h2, -⟩ | ⟨x, h1, -⟩) | ⟨-, h1⟩
      · have := h.pos
        omega
      · exact ⟨x, h1⟩
      · exact h1
    have hstart := harr.start
    rw [show cur - (nodeAt nodes' cur).length = x by omega]
    have hset := nodeAt_set (i := cur) nodes'
      { nodeAt nodes' cur with reps := told (nodeAt nodes' x) (nodeAt nodes' cur).code } (by omega)
    have hother {y : Nat} (hy : y ≠ cur) := nodeAt_set_ne nodes'
      { nodeAt nodes' cur with reps := told (nodeAt nodes' x) (nodeAt nodes' cur).code } (Ne.symm hy)
    refine h.advance hcur (by rw [Array.size_setIfInBounds, hsize]) hle hl (fun hx => ?_) (by rw [hset]; exact harr.settled)
      (by rw [hset, Function.update_self]; exact he.price) fun hk hkl => ?_
    · rw [hother (by omega)]
      exact he.before hx
    · exact (he.opened hk hkl).congr (fun y hy => hother (by omega)) (hother (by omega))
  · rename_i h0
    exact h.advance hcur hsize hle hl he.before (he.ready.resolve_right fun h => h0 h.1) he.price he.opened

end

/-! ### Offering matches -/

/-- Places that come into reach are too dear to stay. -/
theorem reachOut_spec (place : Nat) (n : Nat) :
    ∀ (nodes : Array Node) (last : Nat), place < nodes.size → place ≤ last + n →
      (reachOut nodes last place n).size = nodes.size ∧
        (∀ k ≤ last, nodeAt (reachOut nodes last place n) k = nodeAt nodes k) ∧
        ∀ k, last < k → k ≤ place → (nodeAt (reachOut nodes last place n) k).price = dearest ∧
          (nodeAt (reachOut nodes last place n) k).literals = 1 := by
  induction n with
  | zero => exact fun nodes last _ hle => ⟨rfl, fun _ _ => rfl, fun k h1 h2 => by omega⟩
  | succ n ih =>
    intro nodes last hsize hle
    rw [reachOut]
    split
    · obtain ⟨h1, h2, h3⟩ := ih (nodes.modify (last + 1) fun node => { node with price := dearest, literals := 1 }) (last + 1)
        (by rwa [Array.size_modify]) (by omega)
      refine ⟨by rw [h1, Array.size_modify], fun k hk => ?_, fun k hk hkp => ?_⟩
      · grind [nodeAt_modify_ne]
      · by_cases hkl : k = last + 1
        · subst hkl
          rw [h2 _ le_rfl, nodeAt_modify_self _ _ (by omega)]
          exact ⟨rfl, rfl⟩
        · exact h3 k (by omega) hkp
    grind

/-- A stretch to which matches from `cur` have been added. -/
structure Offered (z : Stretch) (nodes nodes' : Array Node) (cur last' : Nat) : Prop where
  laid : Laid z nodes' (cur + 1) last'
  before : ∀ {x}, x ≤ cur → nodeAt nodes' x = nodeAt nodes x

theorem Laid.put {nodes : Array Node} (h : Laid z nodes (cur + 1) last)
    (hp : cur + length < stretchSize) (hl : Leads z (nodeAt nodes cur) cur length code) (price : Int) :
    Offered z nodes ((reachOut nodes last (cur + length) (cur + length - last)).modify (cur + length)
      fun node => { node with price, length, code, literals := 0 }) cur (max last (cur + length)) := by
  have hsz := h.size
  have h3 : 3 ≤ length := hl.least
  have hle := h.le
  obtain ⟨hs, hbefore, hnew⟩ := reachOut_spec (cur + length) (cur + length - last) nodes last (by omega) (by omega)
  generalize reachOut nodes last (cur + length) (cur + length - last) = nodes' at hs hbefore hnew ⊢
  have hself := nodeAt_modify_self (i := cur + length) nodes'
    (fun node => { node with price, length, code, literals := 0 }) (by omega)
  have hother {y : Nat} (hy : y ≠ cur + length) := nodeAt_modify_ne nodes'
    (fun node => { node with price, length, code, literals := 0 }) (Ne.symm hy)
  have hsame {x : Nat} (hx : x ≤ cur) : nodeAt (nodes'.modify (cur + length)
      fun node => { node with price, length, code, literals := 0 }) x = nodeAt nodes x := by
    rw [hother (by omega), hbefore x (by omega)]
  refine ⟨h.change (by rw [Array.size_modify, hs]) (le_max_left _ _) (by have := h.last_le; omega)
    (fun hx => hsame (by omega)) fun {k} hk hkl => ?_, hsame⟩
  by_cases hkp : k = cur + length
  · rw [hkp]
    exact .of_match hself rfl hp (by rw [hsame le_rfl]; exact hl)
  · by_cases hkl' : k ≤ last
    · exact (h.opened hk hkl').congr (fun x hx => hsame (by omega)) (by rw [hother hkp, hbefore k hkl'])
    · exact .inl (by simp_all)

/-- The matches of `length` bytes from `cur`, for all lengths up to that of a match found. -/
theorem offerLengths_offered (s : Scan) (base : Int) (least n : Nat) :
    ∀ (nodes : Array Node) (last : Nat), Laid z nodes (cur + 1) last → (n ≠ 0 → cur + (least + n) ≤ stretchSize) →
      (∀ length, least ≤ length → length < least + n → Leads z (nodeAt nodes cur) cur length code) →
      Offered z nodes (offerLengths s base code cur least nodes last n).1 cur (offerLengths s base code cur least nodes last n).2 := by
  induction n with
  | zero => exact fun nodes last h _ _ => ⟨h, fun _ => rfl⟩
  | succ n ih =>
    intro nodes last h hn hl
    rw [offerLengths]
    split
    · obtain ⟨h1, h2⟩ := h.put (show cur + (least + n) < _ by omega) (hl (least + n) (by omega) (by omega))
        (base + s.prices.matchLengthPrice s.fine (least + n))
      obtain ⟨h3, h4⟩ := ih _ _ h1 (fun _ => by omega) fun length hlo hhi => by
        grind
      exact ⟨h3, fun hx => by rw [h4 hx, h2 hx]⟩
    split
    · grind
    · exact ⟨h, fun _ => rfl⟩

/-- A match found from `cur` on leads over all its lengths. -/
theorem leads_of_fitting
    (h : Tree.Fitting z.b z.low z.window z.stop n.reps (n.literals = 0) (z.start + cur) m) (h3 : 3 ≤ length)
    (hle : length ≤ m.length) : Leads z n cur length m.code :=
  ⟨h3, h.code_pos, by have := h.le_stop; dsimp only; omega, h.within, h.agree.mono hle⟩

theorem offerAll_offered (price : Int) {nodes : Array Node}
    (h3 : 3 ≤ s.hunt.least) (h : Laid z nodes (cur + 1) last)
    (hf : ∀ m ∈ found, Tree.Fitting z.b z.low z.window z.stop (nodeAt nodes cur).reps ((nodeAt nodes cur).literals = 0)
      (z.start + cur) m)
    (hn : ∀ m ∈ found, cur + m.length < stretchSize) :
    Offered z nodes (offerAll s price cur found nodes last).1 cur (offerAll s price cur found nodes last).2 := by
  have key : ∀ (l : List Best) (nodes' : Array Node) (last least : Nat), 3 ≤ least → Laid z nodes' (cur + 1) last →
      (∀ {x}, x ≤ cur → nodeAt nodes' x = nodeAt nodes x) → (∀ m ∈ l, m ∈ found) →
      let r := l.foldl (fun (acc : Array Node × Nat × Nat) f =>
        let base := price + s.prices.offsetPrice s.fine f.code
        let r := offerLengths s base f.code cur acc.2.2 acc.1 acc.2.1 (f.length + 1 - acc.2.2)
        (r.1, r.2, f.length + 1)) (nodes', last, least)
      Offered z nodes r.1 cur r.2.1 := by
    intro l
    induction l with
    | nil => exact fun nodes' last least _ h hb _ => ⟨h, hb⟩
    | cons m l ih =>
      intro nodes' last least hl h hb hmem
      have hm := hmem m (by simp)
      obtain ⟨h1, h2⟩ := offerLengths_offered s (price + s.prices.offsetPrice s.fine m.code) least
        (m.length + 1 - least) nodes' last h (fun _ => by have := hn m hm; omega) fun length hlo hhi => by
          rw [hb le_rfl]
          exact leads_of_fitting (hf m hm) (by omega) (by omega)
      have h5 := (hf m hm).least
      exact ih _ _ (m.length + 1) (by omega) h1 (fun hx => by rw [h2 hx, hb hx]) fun m' hm' => hmem m' (by simp [hm'])
  unfold offerAll
  rw [← Array.foldl_toList]
  grind

/-! ### Opening a stretch -/

section

variable {z : Stretch} {nodes : Array Node} {s : Scan} {cur last : Nat}

theorem Laid.grow (h : Laid z nodes 1 last) (hlt : last < stretchSize) (f : Node → Node)
    (hf : Open z (nodeAt (nodes.modify (last + 1) f)) 1 (last + 1)) : Offered z nodes (nodes.modify (last + 1) f) 0 (last + 1) := by
  have hother {y : Nat} (hy : y ≤ last) := nodeAt_modify_ne nodes f (show last + 1 ≠ y by omega)
  refine ⟨h.change Array.size_modify (Nat.le_succ _) hlt (fun hx => hother (by omega)) fun {k} hk hkl => ?_,
    fun hx => hother (by omega)⟩
  by_cases hkp : k = last + 1
  · rw [hkp]
    exact hf
  · exact (h.opened hk (by omega)).congr (fun x hx => hother (by omega)) (hother (by omega))

/-- The first places are reached by literals only. -/
theorem openFirst_laid (h : Laid z nodes 1 0) (n : Nat) (hn : n ≤ stretchSize) :
    Offered z nodes ((List.range n).foldl (fun nodes i => nodes.modify (i + 1) fun node =>
      { node with price := dearest, length := 0, literals := z.literals + i + 1 }) nodes) 0 n := by
  induction n with
  | zero => exact ⟨h, fun _ => rfl⟩
  | succ n ih =>
    obtain ⟨h1, h2⟩ := ih (by omega)
    rw [List.range_succ, List.foldl_append, List.foldl_cons, List.foldl_nil]
    obtain ⟨h3, h4⟩ := h1.grow (by omega)
      (fun node => { node with price := dearest, length := 0, literals := z.literals + n + 1 }) (.inl (by
        rw [nodeAt_modify_self _ _ (by have := h1.size; omega)]
        exact ⟨rfl, Nat.succ_pos _⟩))
    exact ⟨h3, fun hx => by rw [h4 hx, h2 hx]⟩

theorem openWith_laid (s : Scan) (base : Int) (hlimit : limit < stretchSize) (n : Nat) :
    ∀ (nodes : Array Node) (last : Nat), Laid z nodes 1 last → limit ≤ last + n →
      (∀ length, last < length → length ≤ limit → Leads z (nodeAt nodes 0) 0 length code) →
      Offered z nodes (openWith s base code limit (last + 1) nodes n) 0 (max last limit) := by
  induction n with
  | zero =>
    intro nodes last h hle _
    rw [Nat.max_eq_left (by omega)]
    exact ⟨h, fun _ => rfl⟩
  | succ n ih =>
    intro nodes last h hle hl
    rw [openWith]
    split
    · rw [Nat.max_eq_left (by omega)]
      exact ⟨h, fun _ => rfl⟩
    · have hsz := h.size
      have hself := nodeAt_modify_self (i := last + 1) nodes (fun node => { node with
        price := base + s.prices.matchLengthPrice s.fine (last + 1), length := last + 1, code, literals := 0 }) (by omega)
      have hzero := nodeAt_modify_ne nodes (fun node => { node with
        price := base + s.prices.matchLengthPrice s.fine (last + 1), length := last + 1, code, literals := 0 })
        (show last + 1 ≠ 0 by omega)
      obtain ⟨h1, h2⟩ := h.grow (by omega) _ (.of_match hself (by omega) (by omega)
        (by simp_all))
      obtain ⟨h3, h4⟩ := ih _ (last + 1) h1 (by omega) fun length hlo hhi => by
        grind
      rw [show max last limit = max (last + 1) limit by omega]
      exact ⟨h3, fun hx => by rw [h4 hx, h2 hx]⟩

theorem laid_start (hs : s.prices.Settled) (hsize : stretchSize + 3 ≤ nodes.size) :
    Laid z (nodes.modify 0 fun node => { node with
      price := s.literals z.literals, length := 0, literals := z.literals, reps := z.reps }) 1 0 := by
  have hself := nodeAt_modify_self (i := 0) nodes (fun node => { node with
    price := s.literals z.literals, length := 0, literals := z.literals, reps := z.reps }) (by omega)
  refine ⟨by rwa [Array.size_modify], Nat.one_pos, Nat.le_refl _, Nat.zero_le _, fun {k} hk => ?_, fun {k} hk => ?_,
    fun hk hkl => by omega⟩
  · obtain rfl : k = 0 := by omega
    exact .inl (by rw [hself]; exact ⟨rfl, rfl, rfl⟩)
  · obtain rfl : k = 0 := by omega
    have := (hs.litLengthPrice_bounds s.fine z.literals).2
    grind [Scan.literals, placePrice]

theorem openStretch_laid (hs : s.prices.Settled) (hsize : stretchSize + 3 ≤ nodes.size)
    (h3 : 3 ≤ s.hunt.least) (h4 : s.hunt.least ≤ 4)
    (hf : ∀ m ∈ found, Tree.Fitting z.b z.low z.window z.stop z.reps (z.literals = 0) z.start m)
    (hn : ∀ m ∈ found, m.length < stretchSize) :
    Laid z (openStretch s z.literals z.reps found nodes).1 1 (openStretch s z.literals z.reps found nodes).2 := by
  have hst : stretchSize = 4096 := rfl
  have hstart := laid_start (z := z) hs hsize
  have hzero := nodeAt_modify_self (i := 0) nodes (fun node => { node with
    price := s.literals z.literals, length := 0, literals := z.literals, reps := z.reps }) (by omega)
  obtain ⟨hfirst, hsame⟩ := openFirst_laid hstart (s.hunt.least - 1) (by omega)
  -- the matches found, one after the other
  have key : ∀ (l : List Best) (nodes' : Array Node) (place : Nat), 3 ≤ place → Laid z nodes' 1 (place - 1) →
      (nodeAt nodes' 0).reps = z.reps → (nodeAt nodes' 0).literals = z.literals → (∀ m ∈ l, m ∈ found) →
      let r := l.foldl (fun (acc : Array Node × Nat) f =>
        let base := s.literals z.literals + s.literals 0 + s.prices.offsetPrice s.fine f.code
        (openWith s base f.code f.length acc.2 acc.1 (f.length + 1 - acc.2), max acc.2 (f.length + 1))) (nodes', place)
      3 ≤ r.2 ∧ Laid z r.1 1 (r.2 - 1) := by
    intro l
    induction l with
    | nil => simp_all
    | cons m l ih =>
      intro nodes' place hp h hr hl hmem
      have hm := hmem m (by simp)
      obtain ⟨h1, h2⟩ := openWith_laid s (s.literals z.literals + s.literals 0 + s.prices.offsetPrice s.fine m.code)
        (hn m hm) (m.length + 1 - place) nodes' (place - 1) h (by omega) fun length hlo hhi =>
          leads_of_fitting (by rw [hr, hl]; exact hf m hm) (by omega) hhi
      rw [show place - 1 + 1 = place by omega] at h1 h2
      rw [show max (place - 1) m.length = max place (m.length + 1) - 1 by omega] at h1
      exact ih _ _ (by omega) h1 (by rw [h2 le_rfl, hr]) (by rw [h2 le_rfl, hl])
        fun m' hm' => hmem m' (by simp [hm'])
  obtain ⟨hplace, hlaid⟩ := key found.toList _ s.hunt.least h3 hfirst (by rw [hsame le_rfl, hzero])
    (by rw [hsame le_rfl, hzero]) fun m hm => Array.mem_toList_iff.1 hm
  unfold openStretch
  dsimp only
  rw [← Array.foldl_toList]
  exact hlaid.congr Array.size_modify fun hk => nodeAt_modify_ne _ _ (ne_of_gt
    (lt_of_le_of_lt hk (Nat.sub_lt (lt_of_lt_of_le (by decide) hplace) one_pos)))

end

/-! ### Matches found ahead -/

/-- A range in a block up to `stop` that repeats earlier bytes, behind which the cursor stands, or none. -/
def Prospect.Good (p : Prospect) (b : ByteArray) (low window stop : Nat) : Prop :=
  (stop < p.start ∧ stop < p.stop) ∨
    p.stop ≤ stop ∧ p.ahead.Stands b low window p.stop ∧
      ∀ pos, p.start ≤ pos → pos < p.stop → Within low window pos p.offset ∧ Agree b pos (pos - p.offset) (p.stop - pos)

section

variable {p : Prospect} {b : ByteArray} {low window pos stop : Nat}

theorem Prospect.advance_good (h : p.ahead.Stands b low window pos) (hp : pos ≤ stop) :
    (p.advance pos stop).Good b low window stop := by
  rw [advance]
  dsimp only
  have hnone : stop < nowhere stop := Nat.lt_succ_self stop
  by_cases hd : p.ahead.done = true
  · rw [if_pos hd]
    exact .inl ⟨hnone, hnone⟩
  rw [if_neg hd]
  obtain ⟨m, hfit, hlm, hm⟩ := h.here (by simpa using hd)
  generalize p.ahead.seqs.getD p.ahead.pos default = s at hfit hlm hm ⊢
  have hw := hfit.within
  have ha := hfit.agree
  rw [Nat.sub_add_cancel hlm] at hw ha
  by_cases hfar : stop - pos ≤ s.literals - p.ahead.within
  · rw [if_pos hfar]
    exact .inl ⟨hnone, hnone⟩
  rw [if_neg hfar]
  -- the match covers the places from `m` on, of which those before `pos` are passed
  have hcover : ∀ q, m ≤ q → q < m + s.length → ∀ e, e ≤ m + s.length →
      Within low window q s.offset ∧ Agree b q (q - s.offset) (e - q) := by
    intro q hq hlt e he
    refine ⟨hw.mono hq, fun k hk => ?_⟩
    have := ha (q - m + k) (by omega)
    have := hw.low_le
    rwa [show m + (q - m + k) = q + k by omega, show m - s.offset + (q - m + k) = q - s.offset + k by omega] at *
  have hlen : (if s.literals - p.ahead.within = 0 then s.length - (p.ahead.within - s.literals) else s.length) =
      m + s.length - (pos + (s.literals - p.ahead.within)) := by
    split <;> omega
  rw [hlen]
  split
  · refine .inr ⟨le_rfl, ?_, fun q hq hlt => hcover q ?_ ?_ stop ?_⟩
    · have := h.pass (stop - pos)
      rwa [Nat.add_sub_cancel' hp] at this
    all_goals dsimp only at *; omega
  · refine .inr ⟨by dsimp only; omega, ?_, fun q hq hlt => hcover q ?_ ?_ _ ?_⟩
    · have := h.pass (s.literals - p.ahead.within + (m + s.length - (pos + (s.literals - p.ahead.within))))
      rwa [← add_assoc] at this
    all_goals dsimp only at *; omega

theorem Prospect.offer_good (h : p.Good b low window stop) (hp : pos ≤ stop)
    (hf : ∃ l, Tree.Gathered (Tree.Fitting b low window stop reps behind pos) found l) :
    let r := p.offer found pos stop
    r.1.Good b low window stop ∧ ∃ l, Tree.Gathered (Tree.Fitting b low window stop reps behind pos) r.2 l := by
  rw [offer]
  by_cases hd : p.ahead.done = true
  · rw [if_pos hd]
    exact ⟨h, hf⟩
  rw [if_neg hd]
  dsimp only
  have hgood : (if p.stop ≤ pos then
      advance (if p.stop < pos then { p with ahead := p.ahead.pass (pos - p.stop) } else p) pos stop else p).Good b low window stop := by
    split
    · rename_i hle
      rcases h with h | ⟨-, h, -⟩
      · omega
      refine advance_good ?_ hp
      split
      · have := h.pass (pos - p.stop)
        rwa [Nat.add_sub_cancel' hle] at this
      grind
    · exact h
  generalize (if p.stop ≤ pos then
      advance (if p.stop < pos then { p with ahead := p.ahead.pass (pos - p.stop) } else p) pos stop else p) = p' at hgood ⊢
  split
  · exact ⟨hgood, hf⟩
  rename_i hin
  simp only [Bool.or_eq_true, decide_eq_true_eq, not_or, not_lt, not_le] at hin
  obtain ⟨⟨h1, h2⟩, h3⟩ := hin
  have hfit : Tree.Fitting b low window stop reps behind pos ⟨p'.stop - pos, p'.offset + 3⟩ := by
    rcases hgood with h | ⟨hs, -, h⟩
    · omega
    obtain ⟨hw, ha⟩ := h pos h1 h2
    have hlow := hw.low_le
    have := hw.pos
    have : Tree.Fitting b low window stop reps behind pos ⟨p'.stop - pos, pos - (pos - p'.offset) + 3⟩ :=
      .fresh reps behind h3 (by omega) (by omega) (by rwa [Nat.sub_sub_self (by omega)]) ha
    rwa [Nat.sub_sub_self (by omega)] at this
  obtain ⟨l, hl⟩ := hf
  rcases Option.eq_none_or_eq_some found.back? with hn | ⟨last, hs⟩
  · rw [hn]
    exact ⟨hgood, _, (Tree.Gathered.empty _ 0).push (by dsimp only; omega) hfit⟩
  · rw [hs]
    dsimp only
    split
    · rename_i hlt
      rw [hl.back hs] at hlt
      exact ⟨hgood, _, hl.push hlt hfit⟩
    · exact ⟨hgood, l, hl⟩

end

/-! ### Laying out a stretch -/

section

variable {f : Finder} {i j pos : Nat}

/-- What a search over a block needs: a finder that is placed there, with ordered trees. -/
structure Grounded (f : Finder) (i j : Nat) : Prop where
  placed : f.Placed i j
  ring : 2 ≤ f.ring
  dict : ∀ {d}, f.attached = some d → Tree.Attached.Forested f.content f.start d

theorem Grounded.first_le_bottom (hg : Grounded f i j) : firstPosition ≤ f.bottom := by
  rcases Option.eq_none_or_eq_some f.attached with hn | ⟨d, hd⟩
  · rw [Finder.bottom_of_none hn]
    exact hg.placed.first_le
  · rw [Finder.bottom_of_some hd]
    exact (hg.placed.attached hd).1

/-- State of a search that can go on. -/
structure Course.Good (c : Course) (f : Finder) (j : Nat) : Prop where
  size : stretchSize + 3 ≤ c.nodes.size
  forest : c.forest.Good f.content f.ring j
  prospect : c.prospect.Good f.content firstPosition f.span j

theorem matchesAt_spec (hg : Grounded f i j) (hi : i ≤ pos) (hj : pos + hashReach ≤ j) (prices : Prices) (fine : Bool)
    (hF : forest.Good f.content f.ring j)
    (hP : prospect.Good f.content firstPosition f.span j) (reps : Reps) (behind : Bool) :
    let r := matchesAt ⟨Tree.hunt f j, prices, fine⟩ forest prospect pos reps behind
    r.1.forest.Good f.content f.ring j ∧ r.2.Good f.content firstPosition f.span j ∧
      ∃ l, Tree.Gathered (Tree.Fitting f.content firstPosition f.span j reps behind pos) r.1.found l := by
  have hA := Tree.allMatches_spec hg.placed hi hj hg.ring hg.dict hF reps behind
  unfold matchesAt
  generalize Tree.allMatches (Tree.hunt f j) forest pos reps behind = r at hA ⊢
  obtain ⟨forest', found⟩ := r
  obtain ⟨hF', l, hl⟩ := hA
  have hfit : Tree.Gathered (Tree.Fitting f.content firstPosition f.span j reps behind pos) found l :=
    { hl with fits := fun m hm =>
        { hl.fits m hm with within := (hl.fits m hm).within.weaken hg.first_le_bottom le_rfl } }
  exact ⟨hF', Prospect.offer_good hP (show pos ≤ j by omega) ⟨l, hfit⟩⟩

end

/-- The end of a stretch: nothing to take, or a last match from `s` on, to which the nodes lead. -/
structure Ended (z : Stretch) (f : Finder) (j : Nat) (e : End) : Prop where
  course : e.course.Good f j
  taken : e.final.length ≠ 0 → ∃ s, e.cur = s + e.final.literals ∧ s ≤ stretchSize ∧
    (∀ k ≤ s, Settled z (nodeAt e.course.nodes) k) ∧ Leads z (nodeAt e.course.nodes s) s e.final.length e.final.code ∧
    (0 < e.final.literals → e.final.reps = told (nodeAt e.course.nodes s) e.final.code)

section

variable {f : Finder} {i j : Nat} {z : Stretch}

/-- A stretch that is settled up to its last place can be closed there. -/
theorem close_ended (hc : course.Good f j) (h : Laid z course.nodes (last + 1) last) :
    Ended z f j (close course last) := by
  refine ⟨hc, fun hn => ?_⟩
  simp only [close] at hn ⊢
  rcases h.settled (Nat.lt_succ_self last) with ⟨h0, -⟩ | ⟨s, harr, hr⟩
  · exact absurd h0 hn
  have hs := harr.start
  refine ⟨s, by omega, by have := h.last_le; omega, fun k hk => h.settled (by omega), harr.leads, fun _ => hr⟩

/-- A stretch is laid out place by place; there is fuel for every place. -/
theorem layOut_ended (hg : Grounded f i j) (hs : prices.Settled) (fine : Bool) (final : Node)
    (hz : z.b = f.content ∧ z.low = firstPosition ∧ z.window = f.span ∧ z.stop = j) (hi : i ≤ z.start) (fuel : Nat) :
    ∀ (course : Course) (cur last : Nat), course.Good f j → Laid z course.nodes cur last →
      stretchSize + 1 < fuel + cur →
      Ended z f j (layOut ⟨Tree.hunt f j, prices, fine⟩ z.start final course cur last fuel) := by
  induction fuel with
  | zero =>
    intro course cur last _ h hf
    have := h.le
    have := h.last_le
    omega
  | succ fuel ih =>
    intro course cur last hc h hf
    rw [layOut]
    obtain ⟨nodes, forest, prospect⟩ := course
    dsimp only at h ⊢
    by_cases hlast : last < cur
    · rw [if_pos hlast]
      have := h.le
      obtain rfl : cur = last + 1 := by omega
      exact close_ended hc h
    rw [if_neg hlast]
    have hcur : cur ≤ last := by omega
    have hE := extend_extended (s := ⟨Tree.hunt f j, prices, fine⟩) hs h hcur z.start
    generalize extend _ z.start cur last nodes = r at hE ⊢
    obtain ⟨nodes₁, last₁⟩ := r
    dsimp only at hE ⊢
    have hL := hE.laid h hcur
    generalize recalled nodes₁ cur = nodes₂ at hL ⊢
    have hsize := hL.size
    have hc₂ : Course.Good ⟨nodes₂, forest, prospect⟩ f j := ⟨hsize, hc.forest, hc.prospect⟩
    have hnext := ih ⟨nodes₂, forest, prospect⟩ (cur + 1) last₁ hc₂ hL (by omega)
    split
    · exact hnext
    rename_i hlimit
    split
    · simp_all [close_ended]
    split
    · exact hnext
    have hpos : z.start + cur + hashReach ≤ j := by
      have h1 := h.pos
      have h2 : ¬ j - hashReach < z.start + cur := hlimit
      omega
    have hM := matchesAt_spec hg (show i ≤ z.start + cur by omega) hpos prices fine hc.forest hc.prospect
      (nodeAt nodes₂ cur).reps ((nodeAt nodes₂ cur).literals = 0)
    generalize matchesAt _ forest prospect (z.start + cur) (nodeAt nodes₂ cur).reps _ = r at hM ⊢
    obtain ⟨⟨forest', found⟩, prospect'⟩ := r
    dsimp only at hM ⊢
    obtain ⟨hF', hP', l, hfit⟩ := hM
    have hc₃ : Course.Good ⟨nodes₂, forest', prospect'⟩ f j := ⟨hsize, hF', hP'⟩
    obtain ⟨hzb, hzl, hzw, hzs⟩ := hz
    rw [← hzb, ← hzl, ← hzw, ← hzs] at hfit
    rcases Option.eq_none_or_eq_some found.back? with hn | ⟨longest, hb⟩
    · grind
    rw [hb]
    dsimp only
    have hlongest := hfit.fits longest (Array.mem_of_back? hb)
    split
    · refine ⟨hc₃, fun _ => ⟨cur, rfl, ?_, fun k hk => hL.settled (by omega), ?_, fun h0 => absurd h0 (lt_irrefl _)⟩⟩
      · have := hL.last_le
        have := hE.le_last
        omega
      · exact leads_of_fitting hlongest hlongest.least le_rfl
    · rename_i hshort
      simp only [Bool.or_eq_true, decide_eq_true_eq, not_or, not_le, not_lt] at hshort
      have hO := offerAll_offered (s := ⟨Tree.hunt f j, prices, fine⟩)
        ((nodeAt nodes₂ cur).price + Scan.literals ⟨Tree.hunt f j, prices, fine⟩ 0) (Tree.three_le_least f j) hL hfit.fits
        fun m hm => by
          have := hfit.le m hm
          rw [← hfit.back hb] at this
          omega
      generalize offerAll _ _ cur found nodes₂ last₁ = r at hO ⊢
      obtain ⟨nodes₃, last₃⟩ := r
      dsimp only at hO ⊢
      have hL₃ : Laid z (nodes₃.modify (last₃ + 1) fun node => { node with price := dearest }) (cur + 1) last₃ :=
        hO.laid.congr Array.size_modify fun hk => nodeAt_modify_ne _ _ (by omega)
      exact ih _ (cur + 1) last₃ ⟨hL₃.size, hF', hP'⟩ hL₃ (by omega)

end

/-! ### Reading off the sequences -/

/-- Whether there are literals is all that counts for what a code means. -/
theorem resolve_behind (r : Reps) (literals code : Nat) :
    r.resolve (if decide (literals = 0) = true then 0 else 1) code = r.resolve literals code := by
  by_cases h : literals = 0 <;> simp [Reps.resolve, h]

/-- The sequence of a match, behind the literals of the node where it starts. -/
theorem Leads.fits (h : Leads z n k length code) (hp : p + n.literals = z.start + k) :
    Fits z.b z.low z.window n.reps p ⟨n.literals, code, length⟩ := by
  have hw := h.within
  have ha := h.agree
  rw [resolve_behind] at hw ha
  exact ⟨h.code_pos, h.least, by rwa [hp], by rwa [hp]⟩

/-- What is read off explains all bytes since the last match before the stretch. -/
theorem readOff_explains (hlit : z.literals ≤ z.start) (fuel : Nat) :
    ∀ (nodes : Array Node) (place at_ : Nat) (seqs : List Seq) (code length : Nat), place < fuel → place < at_ →
      (∀ k ≤ place, Settled z (nodeAt nodes) k) → Leads z (nodeAt nodes place) place length code →
      let r := readOff nodes place at_ seqs ⟨0, code, length⟩ fuel
      r.1.size = nodes.size ∧ ∃ l, r.2 = l ++ seqs ∧
        Explains z.b z.low z.window z.reps (z.start - z.literals) l (z.start + place + length)
          (told (nodeAt nodes place) code) := by
  induction fuel with
  | zero => omega
  | succ fuel ih =>
    intro nodes place at_ seqs code length hf hat hset hl
    rw [readOff]
    rcases hset place le_rfl with ⟨h0, hlits, hreps⟩ | ⟨s, harr, hreps⟩
    · -- only literals lead here
      rw [if_pos h0]
      refine ⟨Array.size_modify, [⟨(nodeAt nodes place).literals, code, length⟩], rfl, ?_⟩
      have hfit := hl.fits (show z.start - z.literals + (nodeAt nodes place).literals = z.start + place by omega)
      unfold told
      have h := Explains.cons hfit (.nil _ _)
      grind
    · -- a match leads here from the place `s`
      have hstart := harr.start
      have h3 : 3 ≤ (nodeAt nodes place).length := harr.leads.least
      rw [if_neg (by omega), show place - ((nodeAt nodes place).literals + (nodeAt nodes place).length) = s by omega]
      have hsame : ∀ k ≤ s, nodeAt ((nodes.modify at_ fun n => { n with literals := (nodeAt nodes place).literals }).setIfInBounds
          (at_ - 1) (nodeAt nodes place)) k = nodeAt nodes k := fun k hk => by
        grind [nodeAt_set_ne, nodeAt_modify_ne]
      obtain ⟨hsize, l, hl', he⟩ := ih ((nodes.modify at_ fun n => { n with literals := (nodeAt nodes place).literals }).setIfInBounds
          (at_ - 1) (nodeAt nodes place)) s (at_ - 1) (⟨(nodeAt nodes place).literals, code, length⟩ :: seqs)
        (nodeAt nodes place).code (nodeAt nodes place).length (by omega) (by omega)
        (fun k hk => (hset k (by omega)).congr fun x hx => hsame x (by omega))
        (by rw [hsame s le_rfl]; exact harr.leads)
      refine ⟨by grind,
        l ++ [⟨(nodeAt nodes place).literals, code, length⟩], by rw [hl', List.append_assoc]; rfl, ?_⟩
      rw [hsame s le_rfl, ← hreps] at he
      have hfit := hl.fits (show z.start + s + (nodeAt nodes place).length + (nodeAt nodes place).literals = z.start + place by omega)
      have h := he.append (.cons hfit (.nil _ _))
      grind

theorem take_eq (h : Explains b low window r i l j r') :
    ∀ (prices : Prices) (seqs : Array Seq), ∃ prices', take b prices i seqs l = (prices', j, seqs ++ l.toArray) := by
  induction h with
  | nil => simp_all [take]
  | cons hf _ ih =>
    intro prices seqs
    rw [take]
    obtain ⟨prices', h⟩ := ih (prices.addSequence b _ _) (seqs.push _)
    exact ⟨prices', by rw [h]; simp⟩

structure Progress.Good (p : Progress) (f : Finder) (i j : Nat) (r₀ : Reps) : Prop where
  course : p.course.Good f j
  prices : p.prices.Settled
  anchor_le : p.anchor ≤ p.pos
  anchor_le_stop : p.anchor ≤ j
  start_le : i ≤ p.pos
  explains : Explains f.content firstPosition f.span r₀ i p.seqs.toList p.anchor p.reps

def stretchAt (f : Finder) (j pos anchor : Nat) (reps : Reps) : Stretch :=
  { b := f.content, low := firstPosition, window := f.span, stop := j, start := pos, literals := pos - anchor, reps }

theorem finish_good (fine : Bool)
    (hp : prices.Settled) (ha : anchor ≤ pos) (haj : anchor ≤ j) (hi : i ≤ pos)
    (he : Explains f.content firstPosition f.span r₀ i seqs.toList anchor reps)
    (h : Ended (stretchAt f j pos anchor reps) f j e) :
    (finish fine f.content prices reps pos anchor seqs e).Good f i j r₀ := by
  obtain ⟨⟨nodes, forest, prospect⟩, final, cur, last⟩ := e
  obtain ⟨hc, htaken⟩ := h
  rw [finish]
  dsimp only at htaken ⊢
  by_cases h0 : final.length = 0
  · rw [if_pos h0]
    exact ⟨hc, hp, by dsimp only; omega, haj, by dsimp only; omega, he⟩
  rw [if_neg h0]
  obtain ⟨s, hcur, hs, hset, hl, hreps⟩ := htaken h0
  -- in both cases the last match starts at the place `s`
  have hpair : (if final.literals = 0 then ((nodeAt nodes cur).reps.after (nodeAt nodes cur).literals final.code, cur)
      else (final.reps, cur - final.literals)) = ((nodeAt nodes s).reps.after (nodeAt nodes s).literals final.code, s) := by
    by_cases hz : final.literals = 0
    · rw [if_pos hz, hcur, hz, add_zero]
    · grind
  rw [hpair]
  have hsame : ∀ k ≤ s, nodeAt ((if 0 < final.literals then nodes.setIfInBounds (s + 1) final else nodes).setIfInBounds (s + 2) final) k =
      nodeAt nodes k := fun k hk => by
    grind [nodeAt_set_ne]
  have hsize : ((if 0 < final.literals then nodes.setIfInBounds (s + 1) final else nodes).setIfInBounds (s + 2) final).size =
      nodes.size := by
    rw [Array.size_setIfInBounds]
    split
    · rw [Array.size_setIfInBounds]
    · rfl
  generalize (if 0 < final.literals then nodes.setIfInBounds (s + 1) final else nodes).setIfInBounds (s + 2) final = nodes'
    at hsame hsize ⊢
  obtain ⟨hrsize, l, hlist, hex⟩ := readOff_explains (z := stretchAt f j pos anchor reps) (Nat.sub_le _ _) (s + 2) nodes' s (s + 2) []
    final.code final.length (by omega) (by omega) (fun k hk => (hset k hk).congr fun x hx => hsame x (by omega))
    (by rw [hsame s le_rfl]; exact hl)
  generalize readOff nodes' s (s + 2) [] ⟨0, final.code, final.length⟩ (s + 2) = r at hrsize hlist ⊢
  obtain ⟨nodes'', list⟩ := r
  rw [List.append_nil] at hlist
  subst hlist
  rw [hsame s le_rfl] at hex
  dsimp only [stretchAt] at hex
  rw [Nat.sub_sub_self ha] at hex
  obtain ⟨prices', htake⟩ := take_eq hex prices seqs
  rw [htake]
  have hstop : pos + s + final.length ≤ j := hl.le_stop
  refine ⟨⟨by rw [hrsize, hsize]; exact hc.size, hc.forest, hc.prospect⟩, settled_settle _ _, le_rfl, hstop,
    by dsimp only; omega, ?_⟩
  rw [Array.toList_append]
  exact he.append hex

section

variable {f : Finder} {i j : Nat}

theorem stretches_good (r₀ : Reps) (hg : Grounded f i j) (fine : Bool) (fuel : Nat) :
    ∀ p : Progress, p.Good f i j r₀ → (stretches (Tree.hunt f j) fine p fuel).Good f i j r₀ := by
  induction fuel with
  | zero => exact fun p h => h
  | succ fuel ih =>
    intro p h
    rw [stretches]
    obtain ⟨⟨nodes, forest, prospect⟩, prices, final, reps, pos, anchor, seqs⟩ := p
    obtain ⟨hc, hprices, ha, haj, hi, he⟩ := h
    dsimp only at hc hprices ha haj hi he ⊢
    split
    · exact ⟨hc, hprices, ha, haj, hi, he⟩
    rename_i hlim
    have hpos : pos + hashReach ≤ j := by
      have : ¬ j - hashReach ≤ pos := hlim
      omega
    have hM := matchesAt_spec hg hi hpos prices fine hc.forest hc.prospect reps (pos = anchor)
    generalize matchesAt _ forest prospect pos reps (decide (pos = anchor)) = r at hM ⊢
    obtain ⟨⟨forest', found⟩, prospect'⟩ := r
    obtain ⟨hF', hP', l, hfit⟩ := hM
    rcases Option.eq_none_or_eq_some found.back? with hn | ⟨longest, hb⟩
    · rw [hn]
      exact ih _ ⟨⟨hc.size, hF', hP'⟩, hprices, Nat.le_succ_of_le ha, haj, Nat.le_succ_of_le hi, he⟩
    rw [hb]
    refine ih _ (finish_good fine hprices ha haj hi he ?_)
    rw [show decide (pos = anchor) = decide (pos - anchor = 0) by grind] at hfit
    split
    · -- the match is taken at once
      have hL := laid_start (z := stretchAt f j pos anchor reps) (s := ⟨Tree.hunt f j, prices, fine⟩) hprices hc.size
      have hzero := nodeAt_modify_self (i := 0) nodes (fun node => { node with
        price := Scan.literals ⟨Tree.hunt f j, prices, fine⟩ (pos - anchor), length := 0, literals := pos - anchor, reps })
        (by have := hc.size; dsimp only at this; omega)
      refine ⟨⟨hL.size, hF', hP'⟩, fun _ => ⟨0, rfl, Nat.zero_le _, fun k hk => hL.settled (by omega), ?_,
        fun h0 => absurd h0 (lt_irrefl _)⟩⟩
      have hlongest := hfit.fits longest (Array.mem_of_back? hb)
      rw [hzero]
      exact hlongest
    · have hlen : ∀ m ∈ found, m.length < stretchSize := fun m hm => by
        have h1 := hfit.le m hm
        rw [← hfit.back hb] at h1
        have h2 : (Tree.hunt f j).enough ≤ Tree.mostTold - 1 := min_le_right _ _
        have h3 : Tree.mostTold = stretchSize := rfl
        have h4 : stretchSize = 4096 := rfl
        omega
      have hL := openStretch_laid (z := stretchAt f j pos anchor reps) (s := ⟨Tree.hunt f j, prices, fine⟩) hprices hc.size
        (Tree.three_le_least f j) (Tree.least_le f j) hfit.fits hlen
      dsimp only [stretchAt] at hL
      generalize openStretch _ (pos - anchor) reps found nodes = r at hL ⊢
      obtain ⟨nodes', last⟩ := r
      exact layOut_ended hg hprices fine final ⟨rfl, rfl, rfl, rfl⟩ hi _ ⟨nodes', forest', prospect'⟩ 1 last
        ⟨hL.size, hF', hP'⟩ hL (by decide)

/-- What a strategy that weighs matches keeps from block to block. -/
structure Kept (f : Finder) (j : Nat) : Prop where
  forest : Tree.Forest.Good f.content f.ring j ⟨f.tables.hash, f.tables.chain, f.tables.hash3, f.next, f.next⟩
  nodes : f.prices.nodes.size = 0 ∨ stretchSize + 3 ≤ f.prices.nodes.size

theorem begin_nodes {p : Prices} (h : p.nodes.size = 0 ∨ stretchSize + 3 ≤ p.nodes.size) (fine : Bool) (b : ByteArray)
    (i j : Nat) : stretchSize + 3 ≤ (p.begin_ fine b i j).nodes.size := by
  grind [begin_, settle]

theorem parseOnce_explained (reps : Reps) (hg : Grounded f i j) (hk : Kept f j)
    (ha : ahead.Stands f.content firstPosition f.span i) (fine : Bool) :
    let p := parseOnce f fine ahead reps i j
    (∃ tables prices next, p.finder = { f with tables, prices, next }) ∧ Kept p.finder j ∧ p.rest ≤ j ∧
      Explains f.content firstPosition f.span reps i p.seqs.toList (j - p.rest) p.reps := by
  rw [parseOnce]
  dsimp only
  have hg' : Grounded { f with tables := {}, prices := {} } i j :=
    ⟨⟨hg.placed.first_le, hg.placed.low_le, hg.placed.start_le, hg.placed.le, hg.placed.le_size, hg.placed.attached⟩, hg.ring, hg.dict⟩
  have hp := stretches_good reps hg' fine (j - i)
    ⟨⟨(f.prices.begin_ fine f.content i j).nodes, ⟨f.tables.hash, f.tables.chain, f.tables.hash3, f.next, f.next⟩,
      ({ ahead } : Prospect).advance i j⟩, { f.prices.begin_ fine f.content i j with nodes := #[] }, {}, reps,
      if i = f.start then i + 1 else i, i, #[]⟩
    { course := ⟨begin_nodes hk.nodes fine f.content i j, hk.forest, Prospect.advance_good ha hg.placed.le⟩
      prices := by
        have h : (f.prices.begin_ fine f.content i j).Settled := settled_settle _ _
        exact h
      anchor_le := by dsimp only; split <;> omega
      anchor_le_stop := hg.placed.le
      start_le := by dsimp only; split <;> omega
      explains := .nil _ _ }
  generalize stretches _ fine _ (j - i) = p at hp ⊢
  obtain ⟨hc, -, -, haj, -, he⟩ := hp
  refine ⟨⟨_, _, _, rfl⟩, ⟨?_, .inr hc.size⟩, Nat.sub_le _ _, by rwa [Nat.sub_sub_self haj]⟩
  obtain ⟨n, h1, h2, h3, h4, h5⟩ := hc.forest
  exact ⟨n, h1, h2, h3, h4, h5⟩

end

theorem parse_explained (reps : Reps) (hg : Grounded f i j) (hk : Kept f j)
    (ha : ahead.Stands f.content firstPosition f.span i) :
    let p := parse f ahead reps i j
    (∃ tables prices next, p.finder = { f with tables, prices, next }) ∧ Kept p.finder j ∧ p.rest ≤ j ∧
      Explains f.content firstPosition f.span reps i p.seqs.toList (j - p.rest) p.reps := by
  rw [parse]
  split
  · obtain ⟨⟨tables, prices, next, hf⟩, hk', -, -⟩ := parseOnce_explained reps hg hk ha (decide (f.tuning.strategy ≠ .btopt))
    generalize parseOnce f (decide (f.tuning.strategy ≠ .btopt)) ahead reps i j = p at hf hk' ⊢
    obtain ⟨g, reps', seqs, rest⟩ := p
    subst hf
    have hpl := hg.placed
    have h0 : firstPosition = 2 := rfl
    have hk'' : Kept { f with tables := Finder.freshTables f.tuning f.rows f.hash3Log, prices, next := f.start } j := by
      refine ⟨⟨1, one_pos, ?_, ?_, ?_, Tree.Forested.of_zero _ _ (fun k => Table.get_zeros _ k) _ _⟩, hk'.nodes⟩
      · grind [Finder.Placed.first_le, Finder.Placed.low_le]
      · exact hpl.pos_of_le hpl.le
      · intro k
        simp only [Finder.freshTables]
        split <;> simp
    have hg' : Grounded { f with tables := Finder.freshTables f.tuning f.rows f.hash3Log, prices, next := f.start } i j :=
      ⟨⟨hpl.first_le, hpl.low_le, hpl.start_le, hpl.le, hpl.le_size, hpl.attached⟩, hg.ring, hg.dict⟩
    obtain ⟨⟨tables', prices', next', hf'⟩, h⟩ := parseOnce_explained reps hg' hk'' ha (decide (f.tuning.strategy ≠ .btopt))
    exact ⟨⟨tables', prices', next', hf'⟩, h⟩
  · exact parseOnce_explained reps hg hk ha _

end Optimal

end ZstCodec.Match
