import ZstCodec.Proofs.Match.LateTree
import ZstCodec.Match.Fill

/-! # Filled tables

Entering the positions of earlier bytes leaves tables that hold positions of these bytes only, or trees that are
ordered. -/

namespace ZstCodec.Match

variable {i n pos : Nat} {t : Table}

/-- Positions below `n`, behind which a tag stands. -/
def Tagged (n v : Nat) : Prop := v / Fast.tagSize < n

theorem tagged_mul_add (h : pos < n) : Tagged n (pos * Fast.tagSize + tag % Fast.tagSize) := by
  unfold Tagged Fast.tagSize
  omega

namespace Fast

variable {h : Hasher} {b : ByteArray} {stop : Nat}

theorem setTagged_all (ht : t.All (Tagged n)) (k : Nat) (hp : pos < n) :
    (setTagged t k pos).All (Tagged n) := ht.set _ (tagged_mul_add hp)

theorem fillFree_all (ht : t.All (Tagged stop)) (hi : i < stop) : (fillFree h b i t).All (Tagged stop) := by
  grind [fillFree, setTagged_all]

theorem fillFrom_below (fuel : Nat) : ∀ (i : Nat) (t : Table), t.Below stop → (fillFrom h b stop i t fuel).Below stop := by
  induction fuel with
  | zero => exact fun i t ht => ht
  | succ fuel ih =>
    intro i t ht
    have hr : hashReach = 8 := rfl
    rw [fillFrom]
    split
    · exact ih _ _ (ht.set (by omega))
    · exact ht

theorem fillTagged_all (fuel : Nat) :
    ∀ (i : Nat) (t : Table), t.All (Tagged stop) → (fillTagged h b stop i t fuel).All (Tagged stop) := by
  induction fuel with
  | zero => exact fun i t ht => ht
  | succ fuel ih =>
    have hr : hashReach = 8 := rfl
    grind [fillTagged, setTagged_all, fillFree_all]

end Fast

namespace DoubleFast

variable (hl hs : Hasher) (b : ByteArray) {stop : Nat}

theorem fillFrom_below (fuel : Nat) :
    ∀ (i : Nat) (long short : Table), long.Below stop → short.Below stop →
      (fillFrom hl hs b stop i long short fuel).1.Below stop ∧ (fillFrom hl hs b stop i long short fuel).2.Below stop := by
  induction fuel with
  | zero => exact fun i long short h1 h2 => ⟨h1, h2⟩
  | succ fuel ih =>
    intro i long short h1 h2
    have hr : hashReach = 8 := rfl
    rw [fillFrom]
    split
    · exact ih _ _ _ (h1.set (by omega)) (h2.set (by omega))
    · exact ⟨h1, h2⟩

theorem fillTagged_all (fuel : Nat) :
    ∀ (i : Nat) (long short : Table), long.All (Tagged stop) → short.All (Tagged stop) →
      (fillTagged hl hs b stop i long short fuel).1.All (Tagged stop) ∧ (fillTagged hl hs b stop i long short fuel).2.All (Tagged stop) := by
  induction fuel with
  | zero => exact fun i long short h1 h2 => ⟨h1, h2⟩
  | succ fuel ih =>
    have hr : hashReach = 8 := rfl
    grind [Fast.setTagged_all, Fast.fillFree_all, fillTagged.eq_2]

end DoubleFast

end ZstCodec.Match
