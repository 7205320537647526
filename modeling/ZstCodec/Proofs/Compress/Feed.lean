import ZstCodec.Proofs.Compress.Run
import ZstCodec.Proofs.Pipe
import ZstCodec.Compress.Feed

/-! # Feeding and draining

Feeding hands all of its input to the compressor, and draining goes on until nothing waits. The pieces join to what the
intake has written, and none is empty or larger than the room. -/

namespace ZstCodec.Compress

open Pipe Pipe.Act

variable {σ : Type} {s : Settings} {D : DictionaryChoice} {k : Intake} {R : ByteArray} {d : Desk Context σ}

variable {input p : ByteArray} {P : Context → ByteArray → Prop} {Q : Context → Prop} {directive : Directive}
variable {ps : List ByteArray}

theorem call_answers {κ : Type} [Engine κ] {d : Desk κ σ} {pos free : Nat} {x' : κ} {o : Outcome}
    (h : Engine.run d.codec input pos free directive = (x', o)) : Act.Gives (call input pos free directive) d o { d with codec := x' } := by
  unfold call Act.Gives
  change (Except.ok (Engine.run d.codec input pos free directive).2, { d with codec := (Engine.run d.codec input pos free directive).1 }) = _
  rw [h]

theorem call_gives
    (h : d.codec.run input pos free directive = (x', o)) : Act.Gives (call input pos free directive) d o { d with codec := x' } := call_answers h

section
variable [Buffered σ] {doing : Doing} {pos room : Nat} {x' : Context} {o : Outcome}

variable (h : Buffered.held d.object = .empty) (hrun : d.codec.run input pos room directive = (x', o))

include h hrun

theorem exchange_call :
    (exchange doing room (call input pos · directive)).run.run d =
      ((o.result.map fun n => (o.pos, n, o.out)).mapError (.codec doing), { d with codec := x' }) := by
  refine exchange_run room h (call_gives hrun) ?_ fun e => Context.run_error hrun
  rfl

theorem exchange_gives
    (hres : o.result = .ok n) : (exchange doing room (call input pos · directive)).Gives d (o.pos, n, o.out) { d with codec := x' } := by
  refine (exchange_call h hrun).trans ?_
  rw [hres]
  rfl

end

/-- No piece is empty or larger than the room. -/
def Fitting (room : Nat) (ps : List ByteArray) : Prop := ∀ p ∈ ps, 0 < p.size ∧ p.size ≤ room

theorem Fitting.nil : Fitting room [] := fun _ h => absurd h List.not_mem_nil

theorem Fitting.append (hp : Fitting room ps) (hq : Fitting room qs) : Fitting room (ps ++ qs) := by
  intro p h
  rcases List.mem_append.1 h with h | h
  · exact hp p h
  · exact hq p h

theorem Context.Takes.nil {x : Context} (h : x.Takes s D [] k R) : x.At s D k R := by
  obtain ⟨k₀, w, bytes, hat, htake, rfl⟩ := h
  cases htake
  rwa [append_empty]

theorem Fitting.pieces (h : p.size ≤ room) : Fitting room (pieces p) := by
  intro q hq
  obtain ⟨rfl, hpos⟩ := size_of_mem_pieces hq
  exact ⟨hpos, h⟩

/-- An operation that brings the compressor from `x` to `x'` and hands on the pieces `qs`. -/
def Passes (act : ∀ σ : Type, (ByteArray → Act Context σ Unit) → Act Context σ Unit) (x : Context) (qs : List ByteArray) (x' : Context) :
    Prop :=
  ∀ {σ : Type} {emit : ByteArray → Act Context σ Unit} {I : List ByteArray → Desk Context σ → Prop}, Emits emit I →
    ∀ {d : Desk Context σ} {p : List ByteArray}, d.codec = x → I p d → (act σ emit).Does d fun _ d' => d'.codec = x' ∧ I (p ++ qs) d'

theorem Passes.done (x : Context) : Passes (fun _ _ => Pure.pure ()) x [] x := fun _ d ps hc hI =>
  does_pure.2 ⟨hc, by rwa [List.append_nil]⟩

variable {room : Nat}

theorem feedFrom_passes (hroom : 0 < room) (fuel : Nat) :
    ∀ (pos : Nat) (x : Context) (R : ByteArray), x.Has s D → pos ≤ input.size →
      x.Takes s D (slice input pos input.size).data.toList k R → (pos < input.size → R.size < fuel) →
      ∃ x' qs w, Passes (fun _ emit => feedFrom input room emit pos fuel) x qs x' ∧ x'.Has s D ∧ x'.At s D k w ∧
        joined qs ++ w = R ∧ Fitting room qs ∧ (pos < input.size ∨ x.running.isSome → x'.running.isSome) := by
  have hdone {x : Context} {R : ByteArray} (hx : x.Has s D) (ht : x.Takes s D (slice input input.size input.size).data.toList k R) :
      ∃ x' qs w, Passes (fun _ _ => Pure.pure ()) x qs x' ∧ x'.Has s D ∧ x'.At s D k w ∧ joined qs ++ w = R ∧ Fitting room qs ∧
        (input.size < input.size ∨ x.running.isSome → x'.running.isSome) := by
    rw [slice_self] at ht
    exact ⟨x, [], R, Passes.done x, hx, ht.nil, empty_append, .nil, fun h => h.resolve_left (lt_irrefl _)⟩
  induction fuel with
  | zero =>
    intro pos x R hx hp ht hf
    obtain rfl : pos = input.size := by omega
    exact hdone hx ht
  | succ fuel ih =>
    intro pos x R hx hp ht hf
    by_cases hpos : input.size ≤ pos
    · obtain rfl : pos = input.size := by omega
      obtain ⟨x', qs, w, hpass, h⟩ := hdone hx ht
      refine ⟨x', qs, w, fun hE d ps hc hI => ?_, h⟩
      dsimp only
      rw [feedFrom, if_pos hpos]
      exact hpass hE hc hI
    obtain ⟨x₁, o, R', n, hrun, hres, hx₁, ht', hout, h1, h2, hle, hfull, hsome⟩ := ht.more room hx hp
    have hR : o.out.size + R'.size = R.size := by rw [← hout, size_append]
    obtain ⟨x', qs, w, hpass, hx', hat, hjoin, hfit, hrun'⟩ := ih o.pos x₁ R' hx₁ h2 ht' fun hlt => by
      have := hfull hlt
      have := hf (by omega)
      omega
    refine ⟨x', pieces o.out ++ qs, w, fun hE d ps hc hI => ?_, hx', hat, ?_, .append (.pieces hle) hfit, fun _ => hrun' (.inr hsome)⟩
    · simp only [feedFrom, if_neg hpos, does_bind, (call_gives (hc ▸ hrun)).does, hres]
      refine hE.piece o.out (hE.codec x₁ hI) fun d₁ hc₁ hI₁ => ?_
      rw [← List.append_assoc]
      exact hpass hE hc₁ hI₁
    · rw [joined_append, joined_pieces, append_assoc, hjoin, hout]

/-- Feeding hands on what the intake writes meanwhile, up to what waits behind it. -/
theorem feed_passes (hroom : 0 < room) (hx : x.Has s D) (ht : x.Takes s D input.data.toList k R)
    (hf : R.size < x.effort input.size) :
    ∃ x' qs w, Passes (fun _ emit => feed input room emit) x qs x' ∧ x'.Has s D ∧ x'.At s D k w ∧ joined qs ++ w = R ∧ Fitting room qs ∧
      (input.size ≠ 0 ∨ x.running.isSome → x'.running.isSome) := by
  rw [← slice_all input] at ht
  obtain ⟨x', qs, w, hpass, hx', hat, hjoin, hfit, hrun⟩ := feedFrom_passes hroom (x.effort input.size) 0 x R hx (Nat.zero_le _)
    ht fun _ => hf
  refine ⟨x', qs, w, fun hE d ps hc hI => ?_, hx', hat, hjoin, hfit, fun h => hrun (h.imp_left pos_of_ne_zero)⟩
  simp only [feed, does_bind, does_get]
  rw [hc]
  exact hpass hE hc hI

theorem feed_empty (h : input.size = 0) : Passes (fun _ emit => feed input room emit) x [] x := by
  intro σ emit I hE d ps hc hI
  simp only [feed, does_bind, does_get]
  rw [Context.effort, feedFrom, if_pos (le_of_eq h)]
  exact Passes.done x hE hc hI

/-- Calls without input bring a state with the output `R` to come, where `P`, to one without, where `Q`. -/
def Drains (directive : Directive) (P : Context → ByteArray → Prop) (Q : Context → Prop) : Prop :=
  ∀ free x R, P x R → ∃ x' o R' n, x.run .empty 0 free directive = (x', o) ∧ o.out ++ R' = R ∧ o.out.size ≤ free ∧ o.result = .ok n ∧
    (n = 0 ∧ R' = .empty ∧ Q x' ∨ n ≠ 0 ∧ o.out.size = free ∧ P x' R')

theorem drains_flush (s : Settings) (D : DictionaryChoice) (k : Intake) :
    Drains .flush (fun x R => x.Has s D ∧ x.Flushes s D k R) (fun x => x.Has s D ∧ x.Open k .empty) := by
  rintro free x R ⟨hx, h⟩
  obtain ⟨x', o, R', n, hrun, hx', hout, hle, hres, hcase⟩ := Context.run_flush free hx h
  exact ⟨x', o, R', n, hrun, hout, hle, hres, hcase.imp (fun h => ⟨h.1, h.2.1, hx', h.2.2⟩) fun h => ⟨h.1, h.2.1, hx', h.2.2⟩⟩

theorem drains_finish (s : Settings) (D : DictionaryChoice) :
    Drains .finish (fun x R => x.Has s D ∧ x.Finishes s D R) (fun x => x.Has s D ∧ x.Idle none) := by
  rintro free x R ⟨hx, h⟩
  obtain ⟨x', o, R', n, hrun, hx', hout, hle, hres, -, hcase⟩ := Context.run_finish free hx h
  exact ⟨x', o, R', n, hrun, hout, hle, hres, hcase.imp (fun h => ⟨h.1, h.2.1, hx', h.2.2⟩) fun h => ⟨h.1, h.2.1, hx', h.2.2⟩⟩

theorem drainFrom_passes (hroom : 0 < room) (doing : Doing)
    (hD : Drains directive P Q) (fuel : Nat) :
    ∀ (x : Context) (R : ByteArray), P x R → R.size < fuel →
      ∃ x' qs, Passes (fun _ emit => drainFrom directive doing room emit fuel) x qs x' ∧ Q x' ∧ joined qs = R ∧ Fitting room qs := by
  induction fuel with
  | zero => exact fun _ _ _ h => absurd h (Nat.not_lt_zero _)
  | succ fuel ih =>
    intro x R hP hf
    obtain ⟨x₁, o, R', n, hrun, hout, hle, hres, hcase⟩ := hD room x R hP
    have hR : o.out.size + R'.size = R.size := by rw [← hout, size_append]
    rcases hcase with ⟨rfl, rfl, hQ⟩ | ⟨hn, hfull, hP'⟩
    · refine ⟨x₁, pieces o.out, fun hE d ps hc hI => ?_, hQ, ?_, .pieces hle⟩
      · simp only [drainFrom, does_bind, (call_gives (hc ▸ hrun)).does, hres]
        exact hE.piece o.out (hE.codec x₁ hI) fun d₁ hc₁ hI₁ => does_pure.2 ⟨hc₁, hI₁⟩
      · rw [joined_pieces, ← hout, append_empty]
    · obtain ⟨x', qs, hpass, hQ, hjoin, hfit⟩ := ih x₁ R' hP' (by omega)
      refine ⟨x', pieces o.out ++ qs, fun hE d ps hc hI => ?_, hQ, ?_, .append (.pieces hle) hfit⟩
      · simp only [drainFrom, does_bind, (call_gives (hc ▸ hrun)).does, hres]
        refine hE.piece o.out (hE.codec x₁ hI) fun d₁ hc₁ hI₁ => ?_
        rw [if_pos hn, ← List.append_assoc]
        exact hpass hE hc₁ hI₁
      · rw [joined_append, joined_pieces, hjoin, hout]

theorem drain_passes (hroom : 0 < room) (doing : Doing)
    (hD : Drains directive P Q) (hP : P x R) (hf : R.size < x.effort 0) :
    ∃ x' qs, Passes (fun _ emit => drain directive doing room emit) x qs x' ∧ Q x' ∧ joined qs = R ∧ Fitting room qs := by
  obtain ⟨x', qs, hpass, h⟩ := drainFrom_passes hroom doing hD (x.effort 0) x R hP hf
  refine ⟨x', qs, fun hE d ps hc hI => ?_, h⟩
  simp only [drain, does_bind, does_get]
  rw [hc]
  exact hpass hE hc hI

theorem toList_append (a b : ByteArray) : (a ++ b).data.toList = a.data.toList ++ b.data.toList := by
  rw [ByteArray.data_append, Array.toList_append]

theorem toList_of_size {b : ByteArray} (h : b.size = 0) : b.data.toList = [] :=
  List.length_eq_zero_iff.1 ((Running.length_toList b).trans h)

/-! ### Enough calls -/

namespace Context

theorem two_le_effort (x : Context) (n : Nat) : 2 ≤ x.effort n := by
  unfold effort
  omega

variable {x : Context} {w : Writer} {r : Reps} {data out v bytes : ByteArray} {k' : Intake}

theorem Open.backlog (h : x.Open k v) : x.backlog = k.pending.size + v.size := by
  obtain ⟨r, hr, hh, -⟩ := h
  have hw : r.waiting.size = r.out.size - r.given := by rw [Running.waiting, size_slice_of_le le_rfl]
  rw [Context.backlog, hr]
  dsimp only
  rw [← hw, hh.waiting, ← hh.intake]
  rfl

theorem At.backlog (h : x.At s D k v) : x.backlog = k.pending.size + v.size := by
  rcases h with h | ⟨p, hi, rfl, rfl⟩
  · exact h.backlog
  · rw [Context.backlog, hi.running]
    rfl

theorem AtEnd.backlog (h : x.AtEnd s D k v) : x.backlog = k.pending.size + v.size := by
  rcases h with h | ⟨hr, rfl, rfl⟩
  · exact h.backlog
  · rw [Context.backlog, hr]
    rfl

theorem Ending.le_backlog (h : x.Ending v) : v.size ≤ x.backlog := by
  obtain ⟨r, hr, hh⟩ := h
  have hw : r.waiting.size = r.out.size - r.given := by rw [Running.waiting, size_slice_of_le le_rfl]
  rw [Context.backlog, hr]
  dsimp only
  rw [← hw, hh.waiting]
  omega

theorem Finishes.size_lt (h : x.Finishes s D R) : R.size < x.effort 0 := by
  rcases h with h | ⟨k, v, bytes, hat, -, -, hle, rfl⟩
  · have := h.le_backlog
    rw [effort]
    omega
  · have hb := hat.backlog
    rw [mostHeader] at hle
    rw [size_append, effort, hb]
    omega

end Context

end ZstCodec.Compress
