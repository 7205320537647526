import ZstCodec.Proofs.Huffman.Text
import ZstCodec.Proofs.Huffman.Weights

/-! # Which code a text is written in

A text is coded only with a code that has all its bytes: the one its reader knows, after a check unless that is
complete, or one built for the text. -/

namespace ZstCodec.Huffman

open Finset

variable {b : ByteArray} {t : WeightTable} {h : Histogram} {l : List Nat}

variable {known : Known}

/-! ### Limits of the width -/

/-- A limit of the width under which a histogram has a code. -/
structure LimitFor (h : Histogram) (limit : Nat) : Prop where
  two_le : 2 ≤ limit
  le : limit ≤ 11
  room : h.distinct ≤ 2 ^ limit

theorem distinct_le_size (h : Histogram) : h.distinct ≤ h.counts.size := by
  rw [Histogram.Of.distinct_eq]
  exact Fse.occurring_le_size _

theorem distinct_le_length (hof : h.Of l) : h.distinct ≤ l.length := by
  rw [Histogram.Of.distinct_eq, ← hof.sum]
  exact Fse.occurring_le_sum _

theorem bestLog_limit (hof : h.Of l) : LimitFor h (Fse.bestLog 11 l.length h.maxSymbol 1) := by
  have hmin : Fse.minLog = 5 := rfl
  have hmax : Fse.maxLog = 12 := rfl
  have hsize := hof.le
  have hsym : highBit h.maxSymbol < 8 := highBit_lt_of_lt (by omega) (by unfold Histogram.maxSymbol; omega)
  have hleast : Fse.leastLog l.length h.maxSymbol ≤ 9 := by
    unfold Fse.leastLog
    omega
  have hle : Fse.bestLog 11 l.length h.maxSymbol 1 ≤ 11 := Fse.bestLog_le (by omega) (by decide)
  have hge : 5 ≤ Fse.bestLog 11 l.length h.maxSymbol 1 ∧ Fse.leastLog l.length h.maxSymbol ≤ Fse.bestLog 11 l.length h.maxSymbol 1 := by
    unfold Fse.bestLog
    dsimp only
    constructor <;> (split <;> omega)
  refine ⟨by omega, hle, le_trans ?_ (Nat.pow_le_pow_right (by omega) hge.2)⟩
  -- as many widths as tell the occurrences apart, or the symbols
  rcases le_total (highBit l.length + 1) (highBit h.maxSymbol + 2) with hcase | hcase
  · rw [Fse.leastLog, Nat.min_eq_left hcase, pow_succ]
    have hlen := distinct_le_length hof
    grind [highBit_spec]
  grind [pow_add, distinct_le_size, Histogram.maxSymbol, highBit_spec, Fse.leastLog.eq_1]

theorem bestLimit_go (hleast : ∀ g, least ≤ g → g ≤ 11 → LimitFor h g) (fuel : Nat) :
    ∀ (best size guess : Nat) (found : Bool), LimitFor h best → least ≤ guess → LimitFor h (bestLimit.go h 11 least best size guess found fuel) := by
  induction fuel with
  | zero => exact fun best size guess found hb _ => hb
  | succ fuel ih =>
    grind [bestLimit.go]

theorem bestLimit_limit (hof : h.Of l) (htwo : 2 ≤ h.distinct) : LimitFor h (bestLimit h 11) := by
  have hle := distinct_le_size h
  have h256 := hof.le
  refine bestLimit_go (fun g hg h11 => ⟨?_, h11, ?_⟩) _ _ _ _ _ ⟨by omega, by omega, by omega⟩ le_rfl
  · have := le_highBit (k := 1) htwo
    omega
  · have hpow : 2 ^ (highBit h.distinct + 1) ≤ 2 ^ g := Nat.pow_le_pow_right (by omega) hg
    grind [highBit_spec]

/-! ### Codes that have all bytes -/

theorem coverable_of_covers (hof : h.Of (numbersAt b 0 b.size)) (hc : t.code.covers h = true) : Coverable t b 0 b.size := by
  intro k hk hzero
  rw [Code.covers, Bool.and_eq_true, List.all_eq_true] at hc
  have hmem : natAt b (0 + k) ∈ numbersAt b 0 b.size := mem_numbersAt.2 ⟨k, hk, rfl⟩
  have hsym := hc.2 _ (List.mem_range.2 (hof.mem_lt hmem))
  rw [Histogram.count, hof.count, Code.width, WeightTable.code_widths, hzero, WeightTable.widthOf] at hsym
  grind

/-- The outcome of coding a text whose reader knows the code `old` of the table `t`. -/
inductive Outcome (b : ByteArray) (single : Bool) (known : Known) (t : WeightTable) : Coded → Prop
  | refused : Outcome b single known t .refused
  | constant (heq : ∀ k < b.size, byteAt b k = byteAt b 0) : Outcome b single known t .constant
  | again {text : ByteArray} (hknown : known ≠ .nothing) (hc : Coverable t b 0 b.size) (htext : textWith t.code b single = some text)
    (hshort : text.size + 1 < b.size) : Outcome b single known t (.again text)
  | fresh {u : WeightTable} {head body : ByteArray} (hfull : u.Full)
    (hread : ∀ rest, WeightTable.read (head ++ rest) = .ok (u, head.size)) (hc : Coverable u b 0 b.size)
    (htext : textWith u.code b single = some body) (hshort : (head ++ body).size + 1 < b.size) :
    Outcome b single known t (.fresh u.code (head ++ body))

theorem codeAgain_outcome (hknown : known ≠ .nothing) (hc : Coverable t b 0 b.size) :
    Outcome b single known t (codeAgain t.code b single) := by
  unfold codeAgain
  split
  · rename_i text htext
    split
    · exact .refused
    · exact .again hknown hc htext (by omega)
  · exact .refused

/-- If the most frequent byte is all there is, all bytes are equal. -/
theorem bytes_eq_of_largest (hof : h.Of (numbersAt b 0 b.size)) (hl : h.largest = b.size) : ∀ k < b.size, byteAt b k = byteAt b 0 := by
  intro k hk
  obtain ⟨s, hs⟩ := hof.largest
  have hall := List.count_eq_length.1 (show (numbersAt b 0 b.size).count s = (numbersAt b 0 b.size).length by rw [← hs, hl, length_numbersAt])
  have hmem (k : Nat) (hk : k < b.size) : natAt b (0 + k) ∈ numbersAt b 0 b.size := mem_numbersAt.2 ⟨k, hk, rfl⟩
  have h1 := hall _ (hmem k hk)
  have h2 := hall _ (hmem 0 (by omega))
  simp_all [natAt_eq_iff]

/-- A code built for a text is read back and has all its bytes. -/
theorem build_fresh (hof : h.Of (numbersAt b 0 b.size)) (hsize : b.size < 2 ^ 30) (hne : h.largest ≠ b.size)
    (hlimit : LimitFor h limit) (hw : (build h limit).write = some head) :
    ∃ u : WeightTable, u.Full ∧ build h limit = u.code ∧ (∀ rest, WeightTable.read (head ++ rest) = .ok (u, head.size)) ∧
      Coverable u b 0 b.size := by
  have hlen : (numbersAt b 0 b.size).length = b.size := length_numbersAt _ _ _
  have h12 : limit ≤ widthLimit := le_trans hlimit.le (by decide)
  obtain ⟨u, hfull, hcode, hlog, hus, hmem, hone⟩ := build_spec hof (by omega) (by omega) hlimit.two_le h12 hlimit.room
  have hnil : numbersAt b 0 b.size ≠ [] := fun h0 => by
    simp_all
  have hlast : u.weight (u.weights.size - 1) ≠ 0 := by
    rw [hus, hmem]
    exact List.count_pos_iff.1 (pos_of_ne_zero (hof.last hnil))
  rw [hcode] at hw
  have hle := hlimit.le
  exact ⟨u, hfull, hcode, fun rest => WeightTable.read_write hfull (by omega) hlast hone hw rest,
    fun k hk => (hmem _).2 (mem_numbersAt.2 ⟨k, hk, rfl⟩)⟩

theorem two_le_distinct (hof : h.Of (numbersAt b 0 b.size)) (hsize : b.size < 2 ^ 30) (hne : h.largest ≠ b.size) : 2 ≤ h.distinct := by
  have hlen : (numbersAt b 0 b.size).length = b.size := length_numbersAt _ _ _
  obtain ⟨front, back, hf⟩ := exists_front h.counts fun s => by
    rw [hof.count]
    grind
  rw [Histogram.Of.distinct_eq, ← hf.length]
  exact two_le_front hof (by omega) hf

/-- Coding a text, given the code that its reader knows. -/
theorem compress_outcome (hsize : b.size < 2 ^ 30) (single : Bool) (choice : Choice)
    (hold : known ≠ .nothing → old = t.code) (hcomplete : known = .complete → Coverable t b 0 b.size) :
    Outcome b single known t (compress b single choice known old) := by
  unfold compress
  dsimp only
  refine iteInduction (motive := Outcome b single known t) (fun _ => .refused) fun _ => ?_
  refine iteInduction (motive := Outcome b single known t) (fun hrep => ?_) fun _ => ?_
  · simp_all [codeAgain_outcome]
  refine iteInduction (motive := Outcome b single known t) (fun _ => .refused) fun _ => ?_
  have hof := Histogram.ofBytes_of b 0 b.size
  generalize Histogram.ofBytes b 0 b.size = h at hof ⊢
  refine iteInduction (motive := Outcome b single known t) (fun hl => .constant (bytes_eq_of_largest hof hl)) fun hne => ?_
  refine iteInduction (motive := Outcome b single known t) (fun _ => .refused) fun _ => ?_
  -- a code that is known is still known after the check, and then has all bytes
  generalize hk : (if known = .unchecked ∧ !old.covers h then .nothing else known : Known) = checked
  have hagain : checked ≠ .nothing → Outcome b single known t (codeAgain old b single) := fun hc => by
    have hkn : known ≠ .nothing := fun h0 => by
      simp_all
    rw [hold hkn]
    refine codeAgain_outcome hkn ?_
    by_cases hcov : t.code.covers h = true
    · exact coverable_of_covers hof hcov
    · refine hcomplete ?_
      cases known with
      | nothing => exact absurd rfl hkn
      | unchecked => simp_all
      | complete => rfl
  refine iteInduction (motive := Outcome b single known t) (fun hrep => ?_) fun _ => ?_
  · simp_all
  have hlimit : LimitFor h (if choice.searchLimit then bestLimit h 11 else Fse.bestLog 11 b.size h.maxSymbol 1) := by
    split
    · grind [bestLimit_limit, two_le_distinct]
    · grind [bestLog_limit, length_numbersAt]
  generalize (if choice.searchLimit then bestLimit h 11 else Fse.bestLog 11 b.size h.maxSymbol 1) = limit at hlimit ⊢
  split
  · exact .refused
  rename_i head hhead
  split
  · simp_all
  split
  · exact .refused
  obtain ⟨u, hfull, hcode, hread, hcov⟩ := build_fresh hof hsize hne hlimit hhead
  rw [hcode]
  split
  · rename_i body hbody
    split
    · exact .refused
    · exact .fresh hfull hread hcov hbody (by omega)
  · exact .refused

end ZstCodec.Huffman
