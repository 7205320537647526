import ZstCodec.Proofs.Bytes
import ZstCodec.Pipe.Device

/-! # Runs of operations

`act.Gives d a d'`: an operation that finds the desk `d` succeeds with the answer `a` and leaves the desk `d'`.
`act.Does d Q`: it succeeds, with an answer and a desk as `Q` asks for; what must hold for that is computed step by
step.

A source *holds* some bytes if asking it again and again gives exactly these bytes in order, at least one at a time
until none is left. -/

namespace ZstCodec.Pipe

variable {κ σ α β : Type} {d d' d'' : Desk κ σ} {a : α} {b : β}

variable {act : Act κ σ α} {tag : String} {next : α → Act κ σ β}

/-- The operation succeeds with the answer `a` and leaves the desk `d'`. -/
def Act.Gives (act : Act κ σ α) (d : Desk κ σ) (a : α) (d' : Desk κ σ) : Prop := act.run.run d = (.ok a, d')

namespace Act.Gives

theorem pure (a : α) (d : Desk κ σ) : Act.Gives (Pure.pure a) d a d := rfl

theorem run_bind (h : act.Gives d a d') : (act >>= next).run.run d = (next a).run.run d' := by
  unfold Act.Gives at h
  show (ExceptT.bindCont next) (act.run.run d).1 (act.run.run d).2 = _
  rw [h]
  rfl

theorem bind (h : act.Gives d a d') (h' : (next a).Gives d' b d'') : Act.Gives (act >>= next) d b d'' := (run_bind h).trans h'

theorem of_bind (h : Act.Gives (act >>= next) d b d'') :
    ∃ a d', act.Gives d a d' ∧ (next a).Gives d' b d'' := by
  unfold Act.Gives at h ⊢
  change (ExceptT.bindCont next) (act.run.run d).1 (act.run.run d).2 = _ at h
  rcases hact : act.run.run d with ⟨e | a, d'⟩ <;> rw [hact] at h
  · cases h
  · exact ⟨a, d', rfl, h⟩

theorem unique (h : act.Gives d a d') (h' : act.Gives d a' d'') : a = a' ∧ d' = d'' := by
  cases h.symm.trans h'
  exact ⟨rfl, rfl⟩

theorem get (d : Desk κ σ) : Act.Gives (MonadState.get : Act κ σ (Desk κ σ)) d d d := rfl

theorem set (d d' : Desk κ σ) : Act.Gives (MonadStateOf.set d' : Act κ σ PUnit) d ⟨⟩ d' := rfl

theorem modifies (f : Desk κ σ → Desk κ σ) (d : Desk κ σ) : Act.Gives (modify f : Act κ σ PUnit) d ⟨⟩ (f d) := rfl

theorem modifyGet (f : Desk κ σ → α × Desk κ σ) (d : Desk κ σ) :
    Act.Gives (MonadState.modifyGet f : Act κ σ α) d (f d).1 (f d).2 := rfl

theorem object (d : Desk κ σ) : Act.Gives (Pipe.object : Act κ σ σ) d d.object d := rfl

theorem source (d : Desk κ σ) : Act.Gives (Pipe.source : Act κ σ Source) d d.source d := rfl

theorem modifyObject (f : σ → σ) (d : Desk κ σ) :
    Act.Gives (Pipe.modifyObject f : Act κ σ Unit) d () { d with object := f d.object } := rfl

theorem tried {last : Act κ σ β} (h : act.Gives d a d') (h' : last.Gives d' b d'') :
    Act.Gives (tryFinally act last) d a d'' := by
  unfold Act.Gives at h h' ⊢
  simp only [StateT.run, ExceptT.run] at h h' ⊢
  simp only [tryFinally, tryFinally', Functor.map, ExceptT.map, ExceptT.mk, Bind.bind, StateT.bind, h, h']
  rfl

theorem ofExcept (a : α) (d : Desk κ σ) : Act.Gives (MonadExcept.ofExcept (.ok a : Except Failure α) : Act κ σ α) d a d := rfl

end Act.Gives

theorem Act.run_bind_error (h : act.run.run d = (.error e, d')) : (act >>= next).run.run d = (.error e, d') := by
  change (ExceptT.bindCont next) (act.run.run d).1 (act.run.run d).2 = _
  rw [h]
  rfl

/-- The operation succeeds, with an answer and a desk as `Q` says. -/
def Act.Does (act : Act κ σ α) (d : Desk κ σ) (Q : α → Desk κ σ → Prop) : Prop := ∃ a d', act.Gives d a d' ∧ Q a d'

namespace Act

variable {Q Q' : α → Desk κ σ → Prop}

theorem Does.mono (h : act.Does d Q) (hQ : ∀ a d', Q a d' → Q' a d') : act.Does d Q' := by
  obtain ⟨a, d', hgives, h⟩ := h
  exact ⟨a, d', hgives, hQ a d' h⟩

theorem Gives.does (h : act.Gives d a d') : act.Does d Q ↔ Q a d' := by
  refine ⟨?_, fun hQ => ⟨a, d', h, hQ⟩⟩
  rintro ⟨a', d'', h', hQ⟩
  obtain ⟨rfl, rfl⟩ := h.unique h'
  exact hQ

@[simp] theorem does_bind {Q : β → Desk κ σ → Prop} : Does (act >>= next) d Q ↔ act.Does d fun a d' => (next a).Does d' Q := by
  constructor
  · rintro ⟨b, d'', h, hQ⟩
    obtain ⟨a, d', h, h'⟩ := h.of_bind
    exact ⟨a, d', h, b, d'', h', hQ⟩
  · rintro ⟨a, d', h, b, d'', h', hQ⟩
    exact ⟨b, d'', .bind h h', hQ⟩

theorem Does.tried {last : Act κ σ β} (h : act.Does d fun a d' => last.Does d' fun _ d'' => Q a d'') : Does (tryFinally act last) d Q := by
  obtain ⟨a, d', h, b, d'', h', hQ⟩ := h
  exact ⟨a, d'', .tried h h', hQ⟩

@[simp] theorem does_modifyGet : Does (MonadState.modifyGet f) d Q ↔ Q (f d).1 (f d).2 := (Gives.modifyGet f d).does

@[simp] theorem does_pure : Does (Pure.pure a) d Q ↔ Q a d := (Gives.pure a d).does

@[simp] theorem does_get {Q : Desk κ σ → Desk κ σ → Prop} : Does MonadState.get d Q ↔ Q d d := (Gives.get d).does

@[simp] theorem does_ofExcept : Does (MonadExcept.ofExcept (.ok a : Except Failure α)) d Q ↔ Q a d := (Gives.ofExcept a d).does

@[simp] theorem does_object {Q : σ → Desk κ σ → Prop} : Does Pipe.object d Q ↔ Q d.object d := (Gives.object d).does

@[simp] theorem does_modifyObject {Q : Unit → Desk κ σ → Prop} :
    Does (Pipe.modifyObject f) d Q ↔ Q () { d with object := f d.object } := (Gives.modifyObject f d).does

/-- However the operation ends, `Q` holds of its answer and of the desk. -/
def Leaves (act : Act κ σ α) (d : Desk κ σ) (Q : Except Failure α → Desk κ σ → Prop) : Prop := Q (act.run.run d).1 (act.run.run d).2

section
variable {Q Q' : Except Failure α → Desk κ σ → Prop} {R : Except Failure β → Desk κ σ → Prop} {P : Desk κ σ → Prop}

theorem Leaves.mono (h : act.Leaves d Q) (hQ : ∀ a d', Q a d' → Q' a d') : act.Leaves d Q' := hQ _ _ h

theorem Leaves.bind (h : act.Leaves d Q) (herr : ∀ e d', Q (.error e) d' → R (.error e) d') (hok : ∀ a d', Q (.ok a) d' → (next a).Leaves d' R) :
    Leaves (act >>= next) d R := by
  unfold Leaves at h ⊢
  change R (ExceptT.bindCont next (act.run.run d).1 (act.run.run d).2).1 (ExceptT.bindCont next (act.run.run d).1 (act.run.run d).2).2
  generalize act.run.run d = p at h ⊢
  obtain ⟨e | a, d'⟩ := p
  · exact herr e d' h
  · exact hok a d' h

theorem Gives.leaves_bind (h : act.Gives d a d') : Leaves (act >>= next) d R ↔ (next a).Leaves d' R := by
  unfold Leaves
  rw [h.run_bind]

/-- The operation keeps `P`, whether it succeeds or fails. -/
def Keeps (act : Act κ σ α) (P : Desk κ σ → Prop) : Prop := ∀ d, P d → P (act.run.run d).2

theorem Keeps.pure (a : α) : Keeps (Pure.pure a) P := fun _ h => h

theorem Keeps.throw (e : Failure) : Keeps (throw e : Act κ σ α) P := fun _ h => h

theorem Keeps.bind (h : act.Keeps P) (h' : ∀ a, (next a).Keeps P) : Keeps (act >>= next) P := fun d hd =>
  Leaves.bind (Q := fun _ d => P d) (R := fun _ d => P d) (h d hd) (fun _ _ hd => hd) h'

theorem Keeps.ite {c : Prop} [Decidable c] {act' : Act κ σ α} (h : act.Keeps P) (h' : act'.Keeps P) : Keeps (if c then act else act') P := by
  split
  · exact h
  · exact h'

theorem Keeps.guard {c : Prop} [Decidable c] {e : Failure} {rest : PUnit → Act κ σ α} (h : (rest ⟨⟩).Keeps P) :
    Keeps (if c then MonadExcept.throw e >>= rest else rest ⟨⟩) P := .ite (fun _ hd => hd) h

end

/-! ### Output buffers -/

section
variable [Buffered σ]

theorem Gives.assertEmpty (h : Buffered.held d.object = .empty) : Pipe.assertEmpty.Gives d () d := by
  refine (run_bind (.object d)).trans ?_
  rw [h]
  rfl

/-- An empty buffer passes on what is written into it, if nothing is when the codec fails. -/
theorem exchange_run (room : Nat) (h : Buffered.held d.object = .empty)
    (hrun : (run room).Gives d o d') (hobj : d'.object = d.object) (herr : ∀ e, o.result = .error e → o.out = .empty) :
    (exchange doing room run).run.run d = ((o.result.map fun n => (o.pos, n, o.out)).mapError (.codec doing), d') := by
  have hback : Buffered.hold d.object .empty = d.object := by rw [← h, Buffered.hold_held]
  refine (Gives.run_bind (.object d)).trans ?_
  rw [h]
  refine (Gives.run_bind hrun).trans ((Gives.run_bind (.modifyObject _ _)).trans ?_)
  rw [hobj, h, empty_append]
  obtain ⟨codec, object, source, sink, log⟩ := d'
  cases hobj
  rcases hres : o.result with e | n
  · rw [herr e hres, hback]
    rfl
  · refine (Gives.run_bind (.object _)).trans ((Gives.run_bind (.modifyObject _ _)).trans ?_)
    dsimp only
    rw [Buffered.held_hold, Buffered.hold_hold, hback]
    rfl

end

end Act

/-! ### Pieces -/

def joined (ps : List ByteArray) : ByteArray := ps.foldr (· ++ ·) .empty

@[simp] theorem joined_nil : joined [] = .empty := rfl

@[simp] theorem joined_cons (p : ByteArray) (ps : List ByteArray) : joined (p :: ps) = p ++ joined ps := rfl

@[simp] theorem joined_append (ps qs : List ByteArray) : joined (ps ++ qs) = joined ps ++ joined qs := by
  induction ps with
  | nil => exact empty_append.symm
  | cons p ps ih => rw [List.cons_append, joined_cons, ih, joined_cons, append_assoc]

/-- Asked again and again from a state on, `step` gives these pieces and then, once, none. -/
inductive Yields {α : Type} (step : α → Option ByteArray → α → Prop) : α → List ByteArray → α → Prop
  | done {a a' : α} : step a none a' → Yields step a [] a'
  | more {a a' a'' : α} {b : ByteArray} {bs : List ByteArray} : step a (some b) a' → Yields step a' bs a'' → Yields step a (b :: bs) a''

section

variable {step : α → Option ByteArray → α → Prop} {W F : α → ByteArray → Prop} {P : ByteArray → ByteArray → Prop}

/-- Where `R` is to come, `step` gives a piece of it and `W` holds of the rest, or gives none and `F` holds of `R`. -/
def Answers (step : α → Option ByteArray → α → Prop) (W F : α → ByteArray → Prop) (P : ByteArray → ByteArray → Prop) (a : α) (R : ByteArray) : Prop :=
  ∃ o a', step a o a' ∧ (o = none ∧ F a' R ∨ ∃ b R', o = some b ∧ P b R' ∧ W a' R' ∧ b ++ R' = R)

/-- Each piece and what comes after it, up to `R`, are as `P` asks for. -/
def Each (P : ByteArray → ByteArray → Prop) : List ByteArray → ByteArray → Prop
  | [], _ => True
  | b :: bs, R => P b (joined bs ++ R) ∧ Each P bs R

theorem Each.forall {Q : ByteArray → Prop} (h : Each P bs R) (hQ : ∀ b R, P b R → Q b) : ∀ b ∈ bs, Q b := by
  induction bs with
  | nil => simp
  | cons b bs ih => exact List.forall_mem_cons.2 ⟨hQ b _ h.1, ih h.2⟩

/-- What is still to come is yielded piece by piece, up to what is kept at the end. -/
theorem Answers.yields (hP : ∀ b R, P b R → 0 < b.size) (hstep : ∀ {a R}, W a R → Answers step W F P a R) (N : Nat) :
    ∀ {a R}, R.size ≤ N → Answers step W F P a R → ∃ bs a' R', Yields step a bs a' ∧ F a' R' ∧ joined bs ++ R' = R ∧ Each P bs R' := by
  induction N using Nat.strongRecOn with
  | ind N ih =>
    intro a R hN h
    obtain ⟨o, a', hgives, ⟨rfl, hF⟩ | ⟨b, R', rfl, hb, hW, hjoin⟩⟩ := h
    · exact ⟨[], a', R, .done hgives, hF, empty_append, trivial⟩
    · have hR : b.size + R'.size = R.size := by rw [← hjoin, size_append]
      have hpos := hP b R' hb
      obtain ⟨bs, a'', R'', hy, hF, hjoin', hall⟩ := ih R'.size (by omega) le_rfl (hstep hW)
      exact ⟨b :: bs, a'', R'', .more hgives hy, hF, by simp_all [append_assoc], by rwa [hjoin'], hall⟩

end

/-- Whatever pieces have been handed on before, `emit` succeeds, and the codec stays as it is. -/
structure Emits (emit : ByteArray → Act κ σ Unit) (I : List ByteArray → Desk κ σ → Prop) : Prop where
  emit : ∀ {ps d} (b : ByteArray), I ps d → (emit b).Does d fun _ d' => d'.codec = d.codec ∧ I (ps ++ [b]) d'
  codec : ∀ {ps d} (x : κ), I ps d → I ps { d with codec := x }

def pieces (p : ByteArray) : List ByteArray := if p.size ≠ 0 then [p] else []

theorem joined_pieces (p : ByteArray) : joined (pieces p) = p := by
  unfold pieces
  split
  · exact append_empty
  simp_all

theorem size_of_mem_pieces (h : q ∈ pieces p) : q = p ∧ 0 < q.size := by
  unfold pieces at h
  grind

/-- A piece is handed on unless it is empty. -/
theorem Emits.piece {emit : ByteArray → Act κ σ Unit} (h : Emits emit I) {next : PUnit → Act κ σ β}
    (p : ByteArray) (hI : I ps d)
    (hnext : ∀ d', d'.codec = d.codec → I (ps ++ pieces p) d' → (next ⟨⟩).Does d' Q) :
    Act.Does (if p.size ≠ 0 then emit p >>= next else next ⟨⟩) d Q := by
  unfold pieces at hnext
  split <;> rename_i hp
  · rw [if_pos hp] at hnext
    exact Act.does_bind.2 ((h.emit p hI).mono fun _ d' h => hnext d' h.1 h.2)
  simp_all

/-! ### Sources -/

/-- The pieces that were written under a tag, in order. -/
def received (tag : String) (log : Log) : List ByteArray :=
  log.toList.filterMap fun
    | .write t b => if t = tag then some b else none
    | _ => none

/-- A device that does not fail, and gives something as long as it has something. -/
structure Giver.Steady (g : Giver) : Prop where
  canRead : g.canRead = true
  failAt : g.failAt = none
  most : ∀ n, g.most n ≠ some 0

def Giver.left (g : Giver) : ByteArray := slice g.data g.pos g.data.size

theorem Giver.size_left (g : Giver) : g.left.size = (Source.device g).rest := size_slice_of_le le_rfl

theorem askSource_run (hs : d.source = .device g) (n : Int) :
    (askSource n).run.run d = ((g.read n d.log).2.2, { d with source := .device (g.read n d.log).1, log := (g.read n d.log).2.1 }) := by
  refine (Act.Gives.run_bind (.get d)).trans ?_
  rw [hs]
  dsimp only
  generalize g.read n d.log = p
  obtain ⟨g', log, e | b⟩ := p <;> rfl

theorem received_push_write (tag : String) (log : Log) (b : ByteArray) : received tag (log.push (.write tag b)) = received tag log ++ [b] := by
  simp [received]

/-- A device that does not fail. Every piece it takes is noted under the tag. -/
structure Sink.Steady (s : Sink) (tag : String) : Prop where
  kind : s.kind = .noted tag
  outage : s.outage = none

theorem Sink.Steady.not_fails {s : Sink} (h : s.Steady tag) (p : Outage → Bool) : ¬ s.outage.any p = true := by
  rw [h.outage]
  exact Bool.false_ne_true

theorem giveSink_gives (h : d.sink.Steady tag) (b : ByteArray) :
    ∃ sink, Act.Gives (giveSink b) d () { d with sink, log := d.log.push (.write tag b) } ∧ sink.Steady tag := by
  have hwrite : d.sink.write b d.log = ({ d.sink with calls := d.sink.calls + 1 }, d.log.push (.write tag b), .ok ()) := by
    unfold Sink.write
    rw [if_neg (h.not_fails _)]
    dsimp only
    rw [h.kind]
  refine ⟨{ d.sink with calls := d.sink.calls + 1 }, ?_, h.kind, h.outage⟩
  refine .bind (.get d) ?_
  rw [hwrite]
  exact .bind (.set d _) (.ofExcept _ _)

/-- Nothing has happened but to the sink, and nothing has been written to it. -/
structure Quiet (tag : String) (d d' : Desk κ σ) : Prop where
  codec : d'.codec = d.codec
  object : d'.object = d.object
  source : d'.source = d.source
  sink : d'.sink.Steady tag
  log : received tag d'.log = received tag d.log

theorem flushSink_quiet (h : d.sink.Steady tag) : flushSink.Does d fun _ d' => Quiet tag d d' := by
  rw [flushSink, Act.does_bind, Act.does_get]
  split
  · have hflush : d.sink.flush d.log = ({ d.sink with flushes := d.sink.flushes + 1 }, d.log.push (.flush tag), .ok ()) := by
      unfold Sink.flush
      rw [if_neg (h.not_fails _)]
      dsimp only
      rw [h.kind]
    rw [hflush]
    exact ⟨_, _, .bind (.set _ _) (.ofExcept _ _), rfl, rfl, rfl, ⟨h.kind, h.outage⟩, by simp [received]⟩
  · exact Act.does_pure.2 ⟨rfl, rfl, rfl, h, rfl⟩

/-- Since the desk was `d₀`, the sink has been handed the pieces `ps`, whose sizes the object counts. -/
structure Handed (tag : String) (f : σ → Nat → σ) (d₀ : Desk κ σ) (ps : List ByteArray) (d : Desk κ σ) : Prop where
  sink : d.sink.Steady tag
  log : received tag d.log = received tag d₀.log ++ ps
  object : d.object = f d₀.object (joined ps).size
  source : d.source = d₀.source

section

variable {f : σ → Nat → σ} {d₀ : Desk κ σ} {ps : List ByteArray}

theorem Handed.refl (hf : ∀ o, f o 0 = o) (hs : d.sink.Steady tag) : Handed tag f d [] d :=
  ⟨hs, (List.append_nil _).symm, (hf _).symm, rfl⟩

theorem Handed.quiet (h : Handed tag f d₀ ps d) (hq : Quiet tag d d') : Handed tag f d₀ ps d' :=
  ⟨hq.sink, hq.log.trans h.log, hq.object.trans h.object, hq.source.trans h.source⟩

theorem emits_handed (hf : ∀ o m n, f (f o m) n = f o (m + n)) :
    Emits (fun b => do giveSink b; modifyObject (f · b.size)) (Handed tag f d₀) where
  emit := by
    intro ps d b h
    obtain ⟨sink, hgives, hs⟩ := giveSink_gives h.sink b
    simp only [Act.does_bind, hgives.does, Act.does_modifyObject]
    refine ⟨trivial, hs, ?_, ?_, h.source⟩
    · rw [received_push_write, h.log, List.append_assoc]
    grind [joined_append, joined_cons, joined_nil, append_empty, Handed.object]
  codec := fun _ h => ⟨h.sink, h.log, h.object, h.source⟩

end

end ZstCodec.Pipe
