import ZstCodec.Proofs.Compress.Due
import ZstCodec.Compress.StreamWriter
import ZstCodec.Compress.Chunker
import ZstCodec.Compress.Iterator
import ZstCodec.Compress.StreamReader

/-! # Streams over a compressor -/

namespace ZstCodec.Compress

open Pipe Pipe.Act

variable {s : Settings} {D : DictionaryChoice} {R : ByteArray} {x' : Context} {qs : List ByteArray}

variable {c : ByteArray}

/-! ### Writers -/

namespace StreamWriter

variable {tag : String} {d : Desk Context StreamWriter}

def counting (w : StreamWriter) (n : Nat) : StreamWriter := { w with total := w.total + n, written := w.written + n }

theorem emits (d₀ : Desk Context StreamWriter) : Emits emit (Handed tag counting d₀) :=
  emits_handed (f := counting) fun w m n => by simp only [counting, add_assoc]

theorem write_does (hopen : d.object.closed = false) (hs : d.sink.Steady tag)
    (hp : Passes (fun _ emit => feed c d.object.room emit) d.codec qs x') :
    (write (.ok c)).Does d fun n d' => n = (if d.object.returnRead then c.size else (joined qs).size) ∧ d'.codec = x' ∧
      Handed tag counting { d with object := { d.object with written := 0 } } qs d' := by
  simp only [write, does_bind, does_object, if_neg (show ¬ d.object.closed = true by simp [hopen]), does_ofExcept, does_modifyObject]
  refine Does.mono (hp (emits _) (by rfl) (.refl (fun _ => rfl) hs)) fun _ d' h => ?_
  obtain ⟨hc, hh⟩ := h
  split
  · exact does_pure.2 ⟨rfl, hc, hh⟩
  · simp only [does_bind, does_object, does_pure]
    exact ⟨by rw [hh.object]; exact zero_add _, hc, hh⟩

theorem flush_does (mode : FlushMode) (hopen : d.object.closed = false) (hs : d.sink.Steady tag)
    (hp : Passes (fun _ emit => drain mode.directive .compressingStream d.object.room emit) d.codec qs x') :
    (flush mode).Does d fun n d' => n = (joined qs).size ∧ d'.codec = x' ∧
      Handed tag counting { d with object := { d.object with written := 0 } } qs d' := by
  simp only [flush, does_bind, does_object, if_neg (show ¬ d.object.closed = true by simp [hopen]), does_modifyObject]
  refine Does.mono (hp (emits _) (by rfl) (.refl (fun _ => rfl) hs)) fun _ d' h => ?_
  obtain ⟨hc, hh⟩ := h
  have hlast {e : Desk Context StreamWriter} (hc : e.codec = x') (hh : Handed tag counting { d with object := { d.object with written := 0 } } qs e) :
      e.object.written = (joined qs).size ∧ e.codec = x' ∧ Handed tag counting { d with object := { d.object with written := 0 } } qs e :=
    ⟨by rw [hh.object]; exact zero_add _, hc, hh⟩
  split <;> simp only [does_bind, does_object, does_pure]
  · exact (flushSink_quiet hh.sink).mono fun _ e hq => hlast (hq.codec.trans hc) (hh.quiet hq)
  · exact hlast hc hh

end StreamWriter

/-! ### Objects -/

namespace Object

variable {d : Desk Context Object}

theorem emits (finished : Bool) : Emits emit fun ps d => d.object = { finished, out := joined ps } where
  emit := by
    intro ps d b hobj
    rw [emit, does_modifyObject]
    exact ⟨rfl, by simp [hobj]⟩
  codec := fun _ h => h

/-- If the buffer is empty at first, it passes on at once what is written into it. -/
theorem feedFrom_run (fuel pos : Nat) (h : Buffered.held d.object = .empty) :
    (feedFrom c pos fuel).run.run d = (Compress.feedFrom c recommendedRoom emit pos fuel).run.run d := by
  induction fuel generalizing d pos with
  | zero => rfl
  | succ fuel ih =>
    rw [feedFrom, Compress.feedFrom]
    split
    · rfl
    rcases hrun : d.codec.run c pos recommendedRoom .more with ⟨x', o⟩
    rw [Gives.run_bind (call_gives hrun)]
    rcases hres : o.result with e | n
    · refine run_bind_error ((exchange_call h hrun).trans ?_)
      rw [hres]
      rfl
    · rw [Gives.run_bind (exchange_gives h hrun hres)]
      dsimp only
      split
      · exact ih o.pos h
      · exact ih o.pos h

theorem drainFrom_run (directive : Directive) (fuel : Nat) (h : Buffered.held d.object = .empty) :
    (drainFrom directive fuel).run.run d = (Compress.drainFrom directive .endingStream recommendedRoom emit fuel).run.run d := by
  induction fuel generalizing d with
  | zero => rfl
  | succ fuel ih =>
    rw [drainFrom, Compress.drainFrom]
    rcases hrun : d.codec.run .empty 0 recommendedRoom directive with ⟨x', o⟩
    rw [Gives.run_bind (call_gives hrun)]
    rcases hres : o.result with e | n
    · refine run_bind_error ((exchange_call h hrun).trans ?_)
      rw [hres]
      rfl
    · rw [Gives.run_bind (exchange_gives h hrun hres)]
      by_cases hn : n ≠ 0
      · simp only [if_pos hn]
        split
        · exact ih h
        · exact ih h
      · simp only [if_neg hn]

theorem compress_does (hnew : d.object = {}) (hp : Passes (fun _ emit => feed c recommendedRoom emit) d.codec qs x') :
    (compress (.ok c)).Does d fun b d' => b = joined qs ∧ d'.codec = x' ∧ d'.object = {} := by
  obtain ⟨codec, object, source, sink, log⟩ := d
  cases hnew
  obtain ⟨_, d', hgives, hc, hobj⟩ := hp (emits false) (d := ⟨codec, {}, source, sink, log⟩) (p := []) rfl rfl
  simp only [compress, takeOut, does_bind, does_object, Bool.false_eq_true, if_false, does_ofExcept, does_modifyObject, does_get]
  refine ⟨_, d', (feedFrom_run _ 0 rfl).trans ((Gives.run_bind (.get _)).symm.trans hgives), ?_⟩
  simp_all

theorem flush_does (mode : FlushMode) (hnew : d.object = {})
    (hp : Passes (fun _ emit => drain mode.directive .endingStream recommendedRoom emit) d.codec qs x') :
    (flush mode).Does d fun b d' => b = joined qs ∧ d'.codec = x' ∧ d'.object = { finished := mode = .frame } := by
  obtain ⟨codec, object, source, sink, log⟩ := d
  cases hnew
  obtain ⟨_, d', hgives, hc, hobj⟩ := hp (emits (decide (mode = .frame))) (d := ⟨codec, { finished := mode = .frame }, source, sink, log⟩)
    (p := []) rfl rfl
  simp only [flush, takeOut, does_bind, does_object, Bool.false_eq_true, if_false, does_modifyObject]
  refine ⟨_, _, .assertEmpty rfl, does_get.2 ⟨_, d', (drainFrom_run _ _ rfl).trans ((Gives.run_bind (.get _)).symm.trans hgives), ?_⟩⟩
  simp_all

end Object

/-! ### Copying -/

namespace Copied

variable {tag : String} {g : Giver}

def counting (c : Copied) (n : Nat) : Copied := { c with written := c.written + n }

theorem emits (d₀ : Desk Context Copied) : Emits emit (Handed tag counting d₀) :=
  emits_handed (f := counting) fun w m n => by simp only [counting, add_assoc]

end Copied

/-! ### Chunkers -/

namespace Chunker

variable {d : Desk Context Chunker} {k : Intake} {e : Chunker} {out : ByteArray} {input : Option (ByteArray × Nat)} {fuel : Nat}

def Next (a : Run × Desk Context Chunker) (b : Option ByteArray) (a' : Run × Desk Context Chunker) : Prop :=
  (next a.1).Gives a.2 (b, a'.1) a'.2

/-- If the input at hand is taken, the intake becomes `k`, and the output is `R`. -/
def Holds (x : Context) (s : Settings) (D : DictionaryChoice) (k : Intake) (input : Option (ByteArray × Nat)) (R : ByteArray) : Prop :=
  x.Has s D ∧ match input with
    | none => x.At s D k R ∧ x.running.isSome
    | some (b, pos) => pos < b.size ∧ x.Takes s D (slice b pos b.size).data.toList k R

/-- Taking input has given a full chunk of what is still to come, or the input is used up. -/
def Chunked (e : Chunker) (s : Settings) (D : DictionaryChoice) (k : Intake) (R : ByteArray) (o : Option ByteArray) (phase : Phase)
    (d : Desk Context Chunker) : Prop :=
  ∃ out input R', d.object = { e with out, input } ∧ Holds d.codec s D k input R' ∧ out ++ R' = R ∧
    (o = none ∧ input = none ∧ out.size < e.chunkSize ∨ o = some out ∧ (∃ n, phase = .yielded n) ∧ out.size = e.chunkSize)

theorem compressOn_does (e : Chunker) (out : ByteArray) (input : Option (ByteArray × Nat)) (hf : 2 ≤ fuel) (hobj : d.object = { e with out, input })
    (hout : out.size < e.chunkSize) (h : Holds d.codec s D k input R) :
    (compressOn fuel).Does d fun p d' => Chunked e s D k (out ++ R) p.1 p.2 d' := by
  obtain ⟨fuel, rfl⟩ : ∃ m, fuel = m + 2 := ⟨fuel - 2, by omega⟩
  obtain ⟨codec, object, source, sink, log⟩ := d
  cases hobj
  cases input with
  | none =>
    simp only [compressOn, does_bind, does_object, does_pure]
    exact ⟨out, none, R, rfl, h, rfl, .inl ⟨rfl, rfl, hout⟩⟩
  | some at_ =>
    obtain ⟨b, pos⟩ := at_
    obtain ⟨hx, hpos, ht⟩ := h
    obtain ⟨x', o, R', n, hrun, hres, hx', ht', hjoin, h1, h2, hle, hfull, hsome⟩ := ht.more (e.chunkSize - out.size) hx (le_of_lt hpos)
    have hsize : (out ++ o.out).size = out.size + o.out.size := size_append
    have hhold : Holds x' s D k (if o.pos = b.size then none else some (b, o.pos)) R' := by
      refine ⟨hx', ?_⟩
      by_cases hp : o.pos = b.size
      · simp_all [slice_self, Context.Takes.nil]
      · grind
    have happ : out ++ o.out ++ R' = out ++ R := by rw [append_assoc, hjoin]
    rw [compressOn]
    simp only [step, does_bind, does_object, (call_gives hrun).does, does_modifyObject, does_pure, hres]
    by_cases hchunk : (out ++ o.out).size = e.chunkSize
    · rw [if_pos hchunk, does_pure]
      exact ⟨_, _, R', rfl, hhold, happ, .inr ⟨rfl, ⟨n, rfl⟩, hchunk⟩⟩
    · have hp : o.pos = b.size := by
        by_contra hlt
        omega
      rw [if_pos hp] at hhold
      simp only [if_neg hchunk, if_pos hp, compressOn, does_bind, does_object, does_pure]
      exact ⟨_, none, R', rfl, hhold, happ, .inl ⟨rfl, rfl, by omega⟩⟩

/-- Between two chunks of a run that takes input, `R` is still to come. -/
def Taking (data : Except Failure ByteArray) (e : Chunker) (s : Settings) (D : DictionaryChoice) (k : Intake)
    (a : Run × Desk Context Chunker) (R : ByteArray) : Prop :=
  ∃ n out input, a.1 = { task := .compress data, phase := .yielded n } ∧ a.2.object = { e with out, input } ∧ Holds a.2.codec s D k input R

/-- All input has been taken. The rest of the output is in the chunk at hand and in the compressor. -/
def Taken (e : Chunker) (s : Settings) (D : DictionaryChoice) (k : Intake) (a : Run × Desk Context Chunker) (R : ByteArray) : Prop :=
  ∃ out w, a.2.object = { e with out, input := none } ∧ Holds a.2.codec s D k none w ∧ out.size < e.chunkSize ∧ out ++ w = R

theorem Chunked.answers
    (h : (next run).Does d fun p d' => p.2.task = .compress data ∧ Chunked e s D k R p.1 p.2.phase d') :
    Answers Next (Taking data e s D k) (Taken e s D k) (fun b _ => b.size = e.chunkSize) (run, d) R := by
  obtain ⟨⟨o, task, phase⟩, d', hgives, htask, out, input, R', hobj, hh, hjoin, hcase⟩ := h
  subst htask
  refine ⟨o, ⟨_, d'⟩, hgives, ?_⟩
  rcases hcase with ⟨rfl, rfl, hlt⟩ | ⟨rfl, ⟨n, rfl⟩, heq⟩
  · exact .inl ⟨rfl, out, R', hobj, hh, hlt, hjoin⟩
  · exact .inr ⟨out, R', rfl, heq, ⟨n, out, input, rfl, hobj, hh⟩, hjoin⟩

theorem Taking.answers (hsize : 0 < e.chunkSize) (h : Taking data e s D k a R) :
    Answers Next (Taking data e s D k) (Taken e s D k) (fun b _ => b.size = e.chunkSize) a R := by
  obtain ⟨run, d⟩ := a
  obtain ⟨n, out, input, hrun, hobj, hh⟩ := h
  subst hrun
  refine Chunked.answers ?_
  simp only [next, does_bind, does_modifyObject, does_object, does_get]
  refine Does.mono (compressOn_does e .empty input (Context.two_le_effort _ _) (by rw [hobj]) hsize hh) fun p d' h => ?_
  exact does_pure.2 ⟨rfl, h⟩

/-- Nothing is at hand, and the chunker is not finished. -/
structure Ready (c : Chunker) : Prop where
  input : c.input = none
  finished : c.finished = false
  out : c.out.size < c.chunkSize

theorem checkReady_gives (name : String) (pending : Failure) (h : d.object.Ready) : (checkReady name pending).Gives d () d := by
  refine .bind (.object d) ?_
  rw [if_neg (by simp_all [Ready.finished]), if_neg (by rw [h.input]; exact Bool.false_ne_true)]
  exact .pure _ _

theorem compress_empty (hr : d.object.Ready) (h0 : c.size = 0) :
    Next ({ task := .compress (.ok c) }, d) none ({ task := .compress (.ok c), phase := .done }, d) := by
  refine .bind (a := (none, .done)) (.bind (checkReady_gives _ _ hr) (.bind (.ofExcept c d) ?_)) (.pure _ _)
  rw [if_pos h0]
  exact .pure _ _

theorem compress_yields (hr : d.object.Ready) (hx : d.codec.Has s D) (h0 : c.size ≠ 0) (ht : d.codec.Takes s D c.data.toList k R) :
    ∃ bs run d' out w, Yields Next ({ task := .compress (.ok c) }, d) bs (run, d') ∧ d'.object = { d.object with out } ∧ d'.object.Ready ∧
      Holds d'.codec s D k none w ∧ joined bs ++ (out ++ w) = d.object.out ++ R ∧ ∀ b ∈ bs, b.size = d.object.chunkSize := by
  have hsize : 0 < d.object.chunkSize := Nat.lt_of_le_of_lt (Nat.zero_le _) hr.out
  have hfirst : (next { task := .compress (.ok c) }).Does d fun p d' =>
      p.2.task = .compress (.ok c) ∧ Chunked d.object s D k (d.object.out ++ R) p.1 p.2.phase d' := by
    simp only [next, start, does_bind, (checkReady_gives _ _ hr).does, does_ofExcept, if_neg h0, does_modifyObject, does_get]
    refine Does.mono (compressOn_does d.object _ (some (c, 0)) (Context.two_le_effort _ _) rfl hr.out
      ⟨hx, pos_of_ne_zero h0, by rwa [slice_all]⟩) fun p d' h => ?_
    exact does_pure.2 ⟨rfl, h⟩
  obtain ⟨bs, ⟨run, d'⟩, R', hy, ⟨out, w, hobj, hh, hlt, rfl⟩, hjoin, hall⟩ := Answers.yields (fun b _ hb => by omega)
    (Taking.answers hsize) _ le_rfl (Chunked.answers hfirst)
  refine ⟨bs, run, d', out, w, hy, ?_, ?_, hh, hjoin, hall.forall fun _ _ h => h⟩
  · rw [hobj, ← hr.input]
  · rw [hobj]
    exact ⟨rfl, hr.finished, hlt⟩

section

variable {directive : Directive} {P : Context → ByteArray → Prop} {Q : Context → Prop} {task : Task}

/-- Nothing is to come after a call that left `n` bytes waiting, or `R` is. -/
def Remains (P : Context → ByteArray → Prop) (Q : Context → Prop) (n : Nat) (x : Context) (R : ByteArray) : Prop :=
  n = 0 ∧ R = .empty ∧ Q x ∨ n ≠ 0 ∧ P x R

/-- A chunk that is full, or all that was to come. -/
def PartOf (chunkSize : Nat) (b R : ByteArray) : Prop := (0 < b.size ∧ b.size ≤ chunkSize) ∧ (R = .empty ∨ b.size = chunkSize)

/-- Every chunk but the last is full. -/
def Uniform (chunkSize : Nat) (bs : List ByteArray) : Prop := Fitting chunkSize bs ∧ ∀ b ∈ bs.dropLast, b.size = chunkSize

theorem Uniform.of_each (h : Each (PartOf n) bs .empty) : Uniform n bs := by
  refine ⟨h.forall fun b R hb => hb.1, ?_⟩
  induction bs with
  | nil => simp
  | cons b bs ih =>
    cases bs with
    | nil => simp
    | cons b' bs =>
      have hrest : joined (b' :: bs) ++ .empty ≠ .empty := by
        intro hnil
        have hpos := h.2.1.1.1
        have hsize := congrArg ByteArray.size hnil
        rw [joined_cons, append_empty, size_append, size_empty] at hsize
        omega
      exact List.forall_mem_cons.2 ⟨h.1.2.resolve_left hrest, ih h.2⟩

/-- Draining has given a chunk of what is still to come, or nothing was to come. -/
def Drained (e : Chunker) (directive : Directive) (P : Context → ByteArray → Prop) (Q : Context → Prop) (R : ByteArray) (o : Option ByteArray)
    (phase : Phase) (d : Desk Context Chunker) : Prop :=
  o = none ∧ R = .empty ∧ Q d.codec ∧ d.object = { e with out := .empty, finished := e.finished || directive = .finish } ∨
    ∃ n out R', o = some out ∧ phase = .yielded n ∧ PartOf e.chunkSize out R' ∧ d.object = { e with out } ∧
      Remains P Q n d.codec R' ∧ out ++ R' = R

/-- Draining goes on until there is a chunk or nothing is to come. -/
theorem drainOn_does (e : Chunker) (out : ByteArray) (hf : 2 ≤ fuel) (hD : Drains directive P Q) (hobj : d.object = { e with out })
    (hout : out.size < e.chunkSize) (h : P d.codec R) :
    (drainOn directive fuel).Does d fun p d' => Drained e directive P Q (out ++ R) p.1 p.2 d' := by
  obtain ⟨fuel, rfl⟩ : ∃ m, fuel = m + 1 := ⟨fuel - 1, by omega⟩
  obtain ⟨codec, object, source, sink, log⟩ := d
  cases hobj
  obtain ⟨x', o, R', n, hrun, hjoin, hle, hres, hcase⟩ := hD (e.chunkSize - out.size) _ R h
  have happ : out ++ o.out ++ R' = out ++ R := by rw [append_assoc, hjoin]
  have hsize : (out ++ o.out).size = out.size + o.out.size := size_append
  rw [drainOn]
  simp only [step, does_bind, does_object, (call_gives hrun).does, does_modifyObject, does_pure, hres]
  by_cases hne : (out ++ o.out).size ≠ 0
  · rw [if_pos hne, does_pure]
    exact .inr ⟨n, _, R', rfl, rfl, ⟨⟨pos_of_ne_zero hne, by omega⟩, hcase.imp (fun h => h.2.1) fun h => by omega⟩, rfl,
      hcase.imp id fun h => ⟨h.1, h.2.2⟩, happ⟩
  · obtain ⟨rfl, rfl, hQ⟩ := hcase.resolve_right fun h => by omega
    have hnil : out ++ o.out = .empty := size_eq_zero_iff.1 (by omega)
    rw [append_empty, hnil] at happ
    simp only [if_neg hne, if_neg (show ¬ 0 ≠ 0 by decide), does_bind, does_modifyObject, does_pure]
    exact .inl ⟨rfl, happ.symm, hQ, by rw [hnil]⟩

/-- Between two chunks of a run that drains, `R` is still to come. -/
def Draining (task : Task) (e : Chunker) (P : Context → ByteArray → Prop) (Q : Context → Prop) (a : Run × Desk Context Chunker) (R : ByteArray) : Prop :=
  ∃ n out, a.1 = { task, phase := .yielded n } ∧ a.2.object = { e with out } ∧ Remains P Q n a.2.codec R

/-- The operations that drain. -/
def Task.Drains (task : Task) (directive : Directive) : Prop := task = .flush ∧ directive = .flush ∨ task = .finish ∧ directive = .finish

theorem Drained.answers (h : (next run).Does d fun p d' => p.2.task = task ∧ Drained e directive P Q R p.1 p.2.phase d') :
    Answers Next (Draining task e P Q)
      (fun a R => R = .empty ∧ Q a.2.codec ∧ a.2.object = { e with out := .empty, finished := e.finished || directive = .finish })
      (PartOf e.chunkSize) (run, d) R := by
  obtain ⟨⟨o, task, phase⟩, d', hgives, rfl, hcase⟩ := h
  refine ⟨o, ⟨_, d'⟩, hgives, hcase.imp id ?_⟩
  rintro ⟨n, out, R', ho, rfl, hb, hobj, hh, hjoin⟩
  exact ⟨out, R', ho, hb, ⟨n, out, rfl, hobj, hh⟩, hjoin⟩

theorem Draining.does (ht : task.Drains directive) (hD : Drains directive P Q) (hsize : 0 < e.chunkSize)
    (h : Draining task e P Q a R) : (next a.1).Does a.2 fun p d' => p.2.task = task ∧ Drained e directive P Q R p.1 p.2.phase d' := by
  obtain ⟨run, d⟩ := a
  obtain ⟨n, out, hrun, hobj, hh⟩ := h
  subst hrun
  have hafter : (drainAfter directive n).Does { d with object := { d.object with out := .empty } } fun p d' => Drained e directive P Q R p.1 p.2 d' := by
    rcases hh with ⟨rfl, rfl, hQ⟩ | ⟨hn, hP⟩
    · simp only [drainAfter, if_neg (show ¬ 0 ≠ 0 by decide), does_bind, does_modifyObject, does_pure]
      exact .inl ⟨rfl, rfl, hQ, by rw [hobj]⟩
    · simp only [drainAfter, if_pos hn, does_bind, does_get]
      exact drainOn_does e .empty (Context.two_le_effort _ _) hD (by rw [hobj]) hsize hP
  rcases ht with ⟨rfl, rfl⟩ | ⟨rfl, rfl⟩ <;> simp only [next, does_bind, does_modifyObject] <;>
    simp_all

theorem drain_yields (ht : task.Drains directive) (hD : Drains directive P Q) (hr : d.object.Ready) (hP : P d.codec R) :
    ∃ bs run d', Yields Next ({ task }, d) bs (run, d') ∧ Q d'.codec ∧
      d'.object = { d.object with out := .empty, finished := directive = .finish } ∧ joined bs = d.object.out ++ R ∧
      Uniform d.object.chunkSize bs := by
  have hfirst : (next { task }).Does d fun p d' => p.2.task = task ∧ Drained d.object directive P Q (d.object.out ++ R) p.1 p.2.phase d' := by
    have hon := drainOn_does _ _ (Context.two_le_effort d.codec 0) hD rfl hr.out hP
    rcases ht with ⟨rfl, rfl⟩ | ⟨rfl, rfl⟩ <;> simp only [next, start, does_bind, (checkReady_gives _ _ hr).does, does_get] <;>
      simp_all
  obtain ⟨bs, ⟨run, d'⟩, R', hy, ⟨rfl, hQ, hobj⟩, hjoin, hall⟩ := Answers.yields (fun b _ hb => hb.1.1)
    (fun h => Drained.answers (h.does ht hD (Nat.lt_of_le_of_lt (Nat.zero_le _) hr.out))) _ (Nat.le_refl _) (Drained.answers hfirst)
  refine ⟨bs, run, d', hy, hQ, ?_, by rwa [append_empty] at hjoin, .of_each hall⟩
  rw [hobj, hr.finished, Bool.false_or]

end

end Chunker

end ZstCodec.Compress
