import ZstCodec.Fault

/-! # Computations that have passed

What follows from a computation's success: each of its steps succeeded, and no check stopped it. -/

namespace ZstCodec

variable {ε α β : Type}

variable {x : Except ε α} {k : PUnit → Except ε β} {c : Prop} {f : α → Except ε β} {b : β} {e : ε}

theorem ok_of_bind (h : (do let a ← x; f a) = .ok b) :
    ∃ a, x = .ok a ∧ f a = .ok b := by
  cases x with
  | error e => cases h
  | ok a => exact ⟨a, rfl, h⟩

theorem ok_of_check [Decidable c]
    (h : (if c then throw e >>= k else k ⟨⟩) = .ok b) : ¬ c ∧ k ⟨⟩ = .ok b := by
  split at h
  · cases h
  · exact ⟨‹_›, h⟩

theorem check_ok [Decidable c] (h : ¬ c) :
    (if c then throw e >>= k else k ⟨⟩) = k ⟨⟩ := if_neg h

theorem bind_of_ok (h : x = .ok a) : (do let a ← x; f a) = f a := by
  rw [h]
  rfl

theorem ok_of_toOption (h : x.toOption = some a) : x = .ok a := by
  cases x with
  | error e => cases h
  | ok b => exact congrArg Except.ok (Option.some.inj h)

end ZstCodec
