import ZstCodec.Proofs.Compress.Room
import ZstCodec.Proofs.Compress.Streams
import ZstCodec.Proofs.Decompress.Room
import ZstCodec.Proofs.Session.Split
import ZstCodec.Session.Value

/-! # Output buffers are empty between calls

Some streams keep their output buffer from call to call and rely on finding it empty. They always do: an exchange with
the codec empties the buffer, and one that fails has written nothing (`Calm`). So all that can have been done to a
stream before leaves it with an empty buffer (`Reached`). -/

namespace ZstCodec

namespace Pipe

variable {κ σ α β : Type} {P : σ → Prop} {Q Q' : α → Prop} {R : β → Prop} {act act' : Act κ σ α} {next : α → Act κ σ β}

/-- An answer as `Q` asks for, or a failure other than that of an assertion. -/
def Proper (Q : α → Prop) : Except Failure α → Prop
  | .ok a => Q a
  | .error e => e ≠ .assertion

/-- However the operation ends, `P` still holds of the object, and the answer is proper. -/
def Act.Calm (P : σ → Prop) (Q : α → Prop) (act : Act κ σ α) : Prop := ∀ d, P d.object → act.Leaves d fun r d' => P d'.object ∧ Proper Q r

/-- The buffer is empty, and `P` holds of the object. -/
def Clear [Buffered σ] (P : σ → Prop) (x : σ) : Prop := Buffered.held x = .empty ∧ P x

/-- The codec writes at most `n` bytes, and none if it fails. -/
def Act.Writes (n : Nat) (act : Act κ σ Outcome) : Prop :=
  ∀ d, ∃ o d', act.Gives d o d' ∧ d'.object = d.object ∧ o.out.size ≤ n ∧ ∀ e, o.result = .error e → o.out = .empty

namespace Act.Calm

theorem mono (h : Calm P Q act) (hQ : ∀ a, Q a → Q' a) : Calm P Q' act := by
  refine fun d hd => Leaves.mono (h d hd) fun r d' h => ?_
  rcases r with e | a
  · exact h
  · exact ⟨h.1, hQ a h.2⟩

theorem pure (h : Q a) : Calm P Q (Pure.pure a : Act κ σ α) := fun _ hd => ⟨hd, h⟩

theorem throw {e : Failure} (h : e ≠ .assertion) : Calm P Q (MonadExcept.throw e : Act κ σ α) := fun _ hd => ⟨hd, h⟩

theorem throw_bind {e : Failure} (h : e ≠ .assertion) : Calm P R (MonadExcept.throw e >>= next) := fun _ hd => ⟨hd, h⟩

theorem bind (h : Calm P Q act) (h' : ∀ a, Q a → Calm P R (next a)) : Calm P R (act >>= next) := fun d hd =>
  Leaves.bind (h d hd) (fun _ _ h => h) fun a d' h => h' a h.2 d' h.1

theorem ite {c : Prop} [Decidable c] (h : Calm P Q act) (h' : Calm P Q act') : Calm P Q (if c then act else act') :=
  iteInduction (fun _ => h) fun _ => h'

theorem ofExcept (h : r ≠ .error .assertion) : Calm P (fun _ => True) (MonadExcept.ofExcept r : Act κ σ α) := by
  rcases r with e | a
  · exact throw fun he => h (he ▸ rfl)
  · exact pure trivial

theorem get : Calm P (fun d => P d.object) (MonadState.get : Act κ σ (Desk κ σ)) := fun _ hd => ⟨hd, hd⟩

theorem source : Calm P (fun _ => True) (Pipe.source : Act κ σ Source) := fun _ hd => ⟨hd, trivial⟩

theorem object : Calm P P (Pipe.object : Act κ σ σ) := fun _ hd => ⟨hd, hd⟩

theorem modify {f : Desk κ σ → Desk κ σ} (h : ∀ d, P d.object → P (f d).object) :
    Calm P (fun _ => True) (modify f : Act κ σ PUnit) := fun d hd => ⟨h d hd, trivial⟩

theorem askSource (n : Int) : Calm P (fun _ => True) (Pipe.askSource n : Act κ σ ByteArray) := by
  rintro ⟨codec, object, source, sink, log⟩ hd
  cases source with
  | device g =>
    unfold Leaves
    rw [askSource_run rfl]
    refine ⟨hd, ?_⟩
    unfold Giver.read
    split
    · exact Failure.noConfusion
    · trivial
  | buffer b => exact ⟨hd, Failure.noConfusion⟩
  | other length parts => exact ⟨hd, Failure.noConfusion⟩

variable [Buffered σ]

theorem assertEmpty : Calm (Clear P) (fun _ => True) (Pipe.assertEmpty : Act κ σ Unit) := by
  intro d hd
  unfold Leaves
  rw [Gives.assertEmpty hd.1]
  exact ⟨hd, trivial⟩

theorem exchange {run : Nat → Act κ σ Outcome} (h : (run room).Writes room) :
    Calm (Clear P) (fun r => r.2.2.size ≤ room) (exchange doing room run) := by
  intro d hd
  obtain ⟨o, d', hrun, hobj, hle, herr⟩ := h d
  unfold Leaves
  rw [exchange_run room hd.1 hrun hobj herr]
  refine ⟨hobj ▸ hd, ?_⟩
  rcases o.result with e | n
  · exact Failure.noConfusion
  · exact hle

end Act.Calm

/-- A piece, if there is one, is not empty and not larger than the size asked for. -/
def Fits (size : Except Failure Nat) (a : Option ByteArray) : Prop := ∀ b ∈ a, ∃ n, size = .ok n ∧ 1 ≤ b.size ∧ b.size ≤ n

theorem Fits.none (size : Except Failure Nat) : Fits size none := fun _ h => by cases h

theorem Fits.some (h : b.size ≠ 0) (hle : b.size ≤ room) : Fits (.ok room) (some b) := by
  rintro _ ⟨⟩
  exact ⟨room, rfl, by omega, hle⟩

/-- Without a size there is no room. -/
theorem Fits.of_getD (h : Fits (.ok (size.toOption.getD 0)) a) : Fits size a := by
  rcases size with e | n
  · intro b hb
    obtain ⟨_, h0, h1, h2⟩ := h b hb
    cases h0
    exact absurd (le_trans h1 h2) (Nat.not_succ_le_zero 0)
  · exact h

/-- What calls can make of an object. Each of them may fail, and may find anything as codec, source and sink. -/
inductive Reached (new : σ) (calls : Act κ σ α → Prop) : σ → Prop
  | new : Reached new calls new
  | call {act : Act κ σ α} (d : Desk κ σ) : Reached new calls d.object → calls act → Reached new calls (act.run.run d).2.object

theorem Reached.calm {new : σ} (hnew : P new) (hcalls : ∀ act, calls act → act.Calm P Q)
    (h : Reached new calls d.object) (hact : calls act) : Proper Q (act.run.run d).1 := by
  have hreached {x : σ} (h : Reached new calls x) : P x := by
    induction h with
    | new => exact hnew
    | call d _ hact ih => exact (hcalls _ hact d ih).1
  exact (hcalls act hact d (hreached h)).2

end Pipe

open Pipe Pipe.Act

namespace Session.Value

theorem toBytes_ne (v : Value) : v.toBytes ≠ .error .assertion := by
  unfold toBytes
  grind

theorem toRoom_ne (v : Value) : v.toRoom ≠ .error .assertion := by
  unfold toRoom
  grind

theorem toPledge_ne (v : Value) : v.toPledge ≠ .error .assertion := by
  simp only [toPledge, less, compareWith, toSize, bind, Except.bind, pure, Except.pure]
  grind

end Session.Value

namespace Compress

theorem call_writes {σ : Type} (h : directive ≠ .finish ∨ input.size ≤ pos) :
    (call input pos room directive : Act Context σ Outcome).Writes room :=
  fun d => ⟨_, _, call_gives rfl, rfl, d.codec.run_room room h, fun _ => Context.run_error rfl⟩

/-! ### Objects -/

namespace Object

/-- The calls of a compression object. -/
inductive Calls : Action ByteArray → Prop
  | compress (data : Session.Value) : Calls (compress data.toBytes)
  | flush (mode : FlushMode) : Calls (flush mode)

theorem emit_calm (b : ByteArray) : (emit b).Calm (Clear fun _ => True) fun _ => True := .modify fun _ h => h

theorem feedFrom_calm (input : ByteArray) (fuel pos : Nat) : (feedFrom input pos fuel).Calm (Clear fun _ => True) fun _ => True := by
  induction fuel generalizing pos with
  | zero => exact .pure trivial
  | succ fuel ih =>
    refine .ite (.pure trivial) (.bind (.exchange (call_writes (.inl (by decide)))) fun r _ => ?_)
    exact .ite (.bind (emit_calm _) fun _ _ => ih _) (ih _)

theorem drainFrom_calm (directive : Directive) (fuel : Nat) : (drainFrom directive fuel).Calm (Clear fun _ => True) fun _ => True := by
  induction fuel with
  | zero => exact .pure trivial
  | succ fuel ih =>
    refine .bind (.exchange (call_writes (.inr le_rfl))) fun r _ => ?_
    exact .ite (.bind (emit_calm _) fun _ _ => .ite ih (.pure trivial)) (.ite ih (.pure trivial))

theorem Calls.calm (h : Calls act) : act.Calm (Clear fun _ => True) fun _ => True := by
  have htake : takeOut.Calm (Clear fun _ => True) fun _ => True := fun _ h => ⟨h, trivial⟩
  cases h with
  | compress data =>
    refine .bind .object fun _ _ => .ite (.throw_bind Failure.noConfusion) (.bind (.ofExcept data.toBytes_ne) fun b _ => ?_)
    exact .bind (.modify fun _ h => h) fun _ _ => .bind .get fun _ _ => .bind (feedFrom_calm b _ _) fun _ _ => htake
  | flush mode =>
    refine .bind .object fun _ _ => .ite (.throw_bind Failure.noConfusion) (.bind (.modify fun _ h => h) fun _ _ => ?_)
    exact .bind .assertEmpty fun _ _ => .bind .get fun _ _ => .bind (drainFrom_calm _ _) fun _ _ => htake

end Object

/-! ### Iterators -/

namespace Iterator

abbrev Given (pledged : Except Failure (Option Nat)) (size : Except Failure Nat) : Iterator → Prop :=
  Clear fun it => it.pledged = pledged ∧ it.room = size

variable {pledged : Except Failure (Option Nat)} {size : Except Failure Nat} {room : Nat}

theorem finishOn_calm (fuel : Nat) : (finishOn room fuel).Calm (Given pledged size) (Fits (.ok room)) := by
  induction fuel with
  | zero => exact .pure (.none _)
  | succ fuel ih =>
    refine .bind .assertEmpty fun _ _ => .bind (.exchange (call_writes (.inr le_rfl))) fun r hr => ?_
    dsimp only
    split
    · exact .bind (.modify fun _ h => h) fun _ _ => .pure (.some ‹_› hr)
    · exact .ite (.bind (.modify fun _ h => h) fun _ _ => .pure (.none _)) ih

theorem feedOn_calm (input : ByteArray) (fuel pos : Nat) : (feedOn room input pos fuel).Calm (Given pledged size) (Fits (.ok room)) := by
  induction fuel generalizing pos with
  | zero => exact .pure (.none _)
  | succ fuel ih =>
    refine .ite (.pure (.none _)) (.bind (.exchange (call_writes (.inl (by decide)))) fun r hr => ?_)
    dsimp only
    split
    · exact .bind (.modify fun _ h => h) fun _ _ => .pure (.some ‹_› hr)
    · exact ih _

theorem readInput_calm : readInput.Calm (Given pledged size) fun _ => True := by
  refine .bind .get fun d _ => ?_
  generalize d.source = g
  cases g with
  | device g => exact .askSource _
  | buffer b => exact .bind (.modify fun _ h => h) fun _ _ => .pure trivial
  | other n parts => exact .ite (.pure trivial) (.throw Failure.noConfusion)

theorem readOn_calm (fuel : Nat) : (readOn room fuel).Calm (Given pledged size) (Fits (.ok room)) := by
  induction fuel with
  | zero => exact .pure (.none _)
  | succ fuel ih =>
    refine .bind .assertEmpty fun _ _ => .bind readInput_calm fun input _ => ?_
    refine .ite (.bind .get fun d _ => finishOn_calm _) (.bind .get fun d _ => .bind (feedOn_calm _ _ _) fun a ha => ?_)
    cases a with
    | some b => exact .pure ha
    | none => exact .bind .assertEmpty fun _ _ => ih

variable (hpledged : pledged ≠ .error .assertion) (hsize : size ≠ .error .assertion)
include hpledged hsize

theorem start_calm : start.Calm (Given pledged size) fun _ => True := by
  have hbegin {p : Except Failure (Option Nat)} (hp : p ≠ .error .assertion) : (begin p).Calm (Given pledged size) fun _ => True :=
    .bind (.modify fun _ h => h) fun _ _ => .bind (.ofExcept hp) fun _ _ => .bind (.modify fun _ h => h) fun _ _ =>
      .bind .object fun _ h => .bind (.ofExcept (h.2.2 ▸ hsize)) fun _ _ => .pure trivial
  refine .bind .source fun g _ => ?_
  cases g with
  | device g => exact .ite (.bind .object fun _ h => hbegin (h.2.1 ▸ hpledged)) (.throw Failure.noConfusion)
  | buffer b => exact hbegin (by simp)
  | other n parts => exact .ite (hbegin (by simp)) (.throw Failure.noConfusion)

theorem next_calm : next.Calm (Given pledged size) (Fits size) := by
  refine .bind .object fun it hit => .mono ?_ fun _ => Fits.of_getD
  rw [hit.2.2]
  split
  · exact .bind (start_calm hpledged hsize) fun _ _ => .bind .get fun _ _ => readOn_calm _
  · refine .bind .get fun d _ => .bind (feedOn_calm _ _ _) fun a ha => ?_
    cases a with
    | some b => exact .pure ha
    | none => exact .bind .assertEmpty fun _ _ => .bind .get fun _ _ => readOn_calm _
  · exact .ite (.bind (.modify fun _ h => h) fun _ _ => .pure (.none _)) (.bind .get fun _ _ => finishOn_calm _)
  · exact .pure (.none _)

end Iterator

end Compress

namespace Decompress

theorem call_writes {σ : Type} : (call input pos room : Act Stream σ Outcome).Writes room :=
  fun d => ⟨_, _, call_gives rfl, rfl, d.codec.run_room input pos room, fun _ => Stream.run_error⟩

namespace Iterator

abbrev Given (size : Except Failure Nat) : Iterator → Prop := Clear (·.room = size)

variable {size : Except Failure Nat} {room : Nat}

theorem decodeOn_calm (input : ByteArray) (fuel pos : Nat) : (decodeOn room input pos fuel).Calm (Given size) fun r => Fits (.ok room) r.1 := by
  induction fuel generalizing pos with
  | zero => exact .pure (.none _)
  | succ fuel ih =>
    refine .ite (.pure (.none _)) (.bind .assertEmpty fun _ _ =>
      .bind (.exchange call_writes) fun r hr => ?_)
    dsimp only
    split
    · exact .bind (.modify fun _ h => h) fun _ _ => .pure (.some ‹_› hr)
    · exact .ite (.bind (.modify fun _ h => h) fun _ _ => .pure (.none _)) (ih _)

theorem readInput_calm : readInput.Calm (Given size) fun _ => True := by
  refine .bind .get fun d _ => ?_
  generalize d.source = g
  cases g with
  | device g => exact .askSource _
  | buffer b => exact .bind (.modify fun _ h => h) fun _ _ => .pure trivial
  | other n parts => exact .ite (.pure trivial) (.throw Failure.noConfusion)

theorem readOn_calm (fuel : Nat) : (readOn room fuel).Calm (Given size) (Fits (.ok room)) := by
  induction fuel with
  | zero => exact .pure (.none _)
  | succ fuel ih =>
    refine .bind .assertEmpty fun _ _ => .bind readInput_calm fun input _ => ?_
    refine .ite (.bind (.modify fun _ h => h) fun _ _ => .pure (.none _)) (.bind (decodeOn_calm _ _ _) fun r hr => ?_)
    obtain ⟨_ | b, _ | _⟩ := r
    · exact ih
    · exact .pure hr
    · exact .pure hr
    · exact .pure hr

theorem skipInput_calm (n : Int) : (skipInput n).Calm (Given size) fun _ => True := by
  refine .bind .source fun g _ => ?_
  cases g with
  | device g => exact .ite (.throw_bind Failure.noConfusion) (.ite (.bind (.askSource _) fun _ _ => .pure trivial) (.pure trivial))
  | buffer b => exact .ite (.ite (.throw_bind Failure.noConfusion) (.modify fun _ h => h)) (.pure trivial)
  | other length parts => exact .ite (.throw_bind Failure.noConfusion) (.ite (.throw Failure.noConfusion) (.pure trivial))

theorem start_calm (hsize : size ≠ .error .assertion) : start.Calm (Given size) fun _ => True :=
  .bind .object fun _ h => .ite (.throw_bind Failure.noConfusion) (.bind (skipInput_calm _) fun _ _ =>
    .bind (.modify fun _ h => h) fun _ _ => .bind (.ofExcept (h.2 ▸ hsize)) fun _ _ => .pure trivial)

theorem next_calm (hsize : size ≠ .error .assertion) : next.Calm (Given size) (Fits size) := by
  refine .bind .object fun it hit => .mono ?_ fun _ => Fits.of_getD
  rw [hit.2]
  split
  · exact .bind (start_calm hsize) fun _ _ => .bind .get fun _ _ => readOn_calm _
  · refine .ite (.bind (.modify fun _ h => h) fun _ _ => .pure (.none _)) (.bind (decodeOn_calm _ _ _) fun r hr => ?_)
    obtain ⟨_ | b, _ | _⟩ := r
    · exact .bind .get fun _ _ => readOn_calm _
    · exact .pure hr
    · exact .pure hr
    · exact .pure hr
  · exact .pure (.none _)

end Iterator

end Decompress

/-- Whatever has been done with a compression object or an iterator, and whatever has failed, its output buffer is empty
where it relies on that. Iterators yield pieces of at least one byte and at most the size asked for. -/
theorem buffers_empty (size writeSize : Session.Value) (readSize skip : Int) :
    (∀ d act, Reached {} Compress.Object.Calls d.object → Compress.Object.Calls act → Proper (fun _ => True) (act.run.run d).1) ∧
    (∀ d, Reached { pledged := size.toPledge, readSize, room := writeSize.toRoom } (· = Compress.Iterator.next) d.object →
      Proper (Fits writeSize.toRoom) (Compress.Iterator.next.run.run d).1) ∧
    ∀ d, Reached { readSize, room := writeSize.toRoom, skip } (· = Decompress.Iterator.next) d.object →
      Proper (Fits writeSize.toRoom) (Decompress.Iterator.next.run.run d).1 := by
  refine ⟨fun d act h hact => h.calm (P := Clear fun _ => True) ⟨rfl, trivial⟩ (fun _ h => h.calm) hact,
    fun d h => h.calm (P := Compress.Iterator.Given _ _) ⟨rfl, rfl, rfl⟩ ?_ rfl, fun d h => h.calm (P := Decompress.Iterator.Given _) ⟨rfl, rfl⟩ ?_ rfl⟩
  · rintro _ rfl
    exact Compress.Iterator.next_calm size.toPledge_ne writeSize.toRoom_ne
  · rintro _ rfl
    exact Decompress.Iterator.next_calm writeSize.toRoom_ne

end ZstCodec
