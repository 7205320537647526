import ZstCodec.Proofs.Session.Written
import ZstCodec.Session.Script

/-! # Writers over sinks that fail

Any write or flush of a sink may fail, and the writer can be asked to go on. It counts what its sink has taken. With the first attempt to
close it is closed for good: it refuses all requests, and its sink was closed along with it just if the last flush went well
(`writer_accounts`). -/

namespace ZstCodec.Pipe

variable {κ σ α β : Type} {act : Act κ σ α}

theorem Act.run_tryFinally_error {last : Act κ σ β} (h : act.run.run d = (.error e, d'))
    (h' : last.Gives d' b d'') : (tryFinally act last).run.run d = (.error e, d'') := by
  unfold Act.Gives at h'
  simp only [StateT.run, ExceptT.run] at h h' ⊢
  simp only [tryFinally, tryFinally', Functor.map, ExceptT.map, ExceptT.mk, Bind.bind, StateT.bind, h, h']
  rfl

theorem giveSink_run (b : ByteArray) (d : Desk κ σ) : (giveSink b).run.run d =
    ((d.sink.write b d.log).2.2, { d with sink := (d.sink.write b d.log).1, log := (d.sink.write b d.log).2.1 }) := by
  refine (Act.Gives.run_bind (.get d)).trans ?_
  dsimp only
  generalize d.sink.write b d.log = p
  obtain ⟨sink, log, e | a⟩ := p <;> rfl

theorem flushSink_run (d : Desk κ σ) : flushSink.run.run d =
    if d.sink.canFlush then ((d.sink.flush d.log).2.2, { d with sink := (d.sink.flush d.log).1, log := (d.sink.flush d.log).2.1 }) else (.ok (), d) := by
  refine (Act.Gives.run_bind (.get d)).trans ?_
  dsimp only
  generalize d.sink.flush d.log = p
  obtain ⟨sink, log, e | a⟩ := p <;> split <;> rfl

/-- How often the device with the tag was closed. -/
def closings (tag : String) (log : Log) : Nat :=
  log.toList.countP fun
    | .close t => t = tag
    | _ => false

theorem closings_push (tag : String) (log : Log) (h : ∀ t, e ≠ .close t) : closings tag (log.push e) = closings tag log := by
  unfold closings
  rw [Array.toList_push, List.countP_append]
  cases e <;> simp_all

end ZstCodec.Pipe

namespace ZstCodec.Compress

open Pipe Pipe.Act

section

variable {σ : Type} {P : Desk Context σ → Prop} {emit : ByteArray → Act Context σ Unit}

variable (hcodec : ∀ d x, P d → P { d with codec := x }) (hemit : ∀ b, (emit b).Keeps P)

include hcodec hemit

theorem feedFrom_keeps (input : ByteArray) (room pos fuel : Nat) :
    (feedFrom input room emit pos fuel).Keeps P := by
  induction fuel generalizing pos with
  | zero => exact .pure _
  | succ fuel ih =>
    rw [feedFrom]
    split
    · exact .pure _
    · refine .bind (fun d => hcodec d _) fun o => ?_
      split
      · exact .throw _
      · split
        · exact .bind (hemit _) fun _ => ih _
        · exact ih _

theorem drainFrom_keeps (directive : Directive) (doing : Doing)
    (room fuel : Nat) : (drainFrom directive doing room emit fuel).Keeps P := by
  induction fuel with
  | zero => exact .pure _
  | succ fuel ih =>
    rw [drainFrom]
    refine .bind (fun d => hcodec d _) fun o => ?_
    split
    · exact .throw _
    · -- what follows a piece does not depend on whether there was one
      split
      · dsimp only
        split
        · exact .bind (hemit _) fun _ => ih
        · exact ih
      · dsimp only
        split
        · exact .bind (hemit _) .pure
        · exact .pure _

end

namespace StreamWriter

variable {tag : String} {d d₀ : Desk Context StreamWriter}

/-- Since `d₀` the writer has counted what its sink takes, and neither was closed. -/
structure Counts (tag : String) (d₀ d : Desk Context StreamWriter) : Prop where
  kind : d.sink.kind = .noted tag
  total : d.object.total = (joined (received tag d.log)).size
  closed : d.object.closed = d₀.object.closed
  closesSink : d.object.closesSink = d₀.object.closesSink
  canClose : d.sink.canClose = d₀.sink.canClose
  closings : closings tag d.log = closings tag d₀.log

theorem emit_counts (b : ByteArray) : (emit b).Keeps (Counts tag d₀) := by
  intro d h
  have hrun := giveSink_run b d
  unfold Sink.write at hrun
  unfold emit
  split at hrun
  · rw [run_bind_error hrun]
    exact { h with }
  · dsimp only at hrun
    rw [h.kind] at hrun
    rw [Gives.run_bind hrun]
    refine ⟨rfl, ?_, h.closed, h.closesSink, h.canClose, ?_⟩
    · change d.object.total + b.size = (joined (received tag (d.log.push (.write tag b)))).size
      rw [h.total, received_push_write, joined_append, size_append, joined_cons, joined_nil, append_empty]
    · exact (closings_push tag d.log fun t ht => by cases ht).trans h.closings

theorem flushSink_counts : flushSink.Keeps (Counts tag d₀) := by
  intro d h
  rw [flushSink_run]
  split
  · unfold Sink.flush
    split
    · exact { h with }
    · dsimp only
      rw [h.kind]
      exact ⟨rfl, h.total.trans (by simp [received]), h.closed, h.closesSink, h.canClose,
        (closings_push tag d.log fun t ht => by cases ht).trans h.closings⟩
  · exact h

theorem serve_counts (r : Request) : (serve r).Keeps (Counts tag d₀) := by
  have hcodec (d : Desk Context StreamWriter) (x : Context) (h : Counts tag d₀ d) : Counts tag d₀ { d with codec := x } :=
    { h with }
  have hbegin : Keeps (modifyObject ({ · with written := 0 })) (Counts tag d₀) := fun d h =>
    { h with }
  have hanswer : Keeps (do return (← object).written : Action Nat) (Counts tag d₀) := .bind (fun _ h => h) .pure
  cases r with
  | write c =>
    refine .bind (fun _ h => h) fun w => .guard (.bind (.pure c) fun data => .bind hbegin fun _ => ?_)
    refine .bind (.bind (fun _ h => h) fun _ => feedFrom_keeps hcodec emit_counts _ _ _ _) fun _ => ?_
    exact .ite (.pure _) hanswer
  | flush mode =>
    refine .bind (fun _ h => h) fun w => .guard (.bind hbegin fun _ => ?_)
    refine .bind (.bind (fun _ h => h) fun _ => drainFrom_keeps hcodec emit_counts _ _ _ _) fun _ => ?_
    exact .ite (.bind flushSink_counts fun _ => hanswer) hanswer

/-- The writer after some requests, served or not; `none` is an attempt to close. -/
def after (d : Desk Context StreamWriter) (os : List (Option Request)) : Desk Context StreamWriter :=
  os.foldl (fun d o => match o with
    | some r => ((serve r).run.run d).2
    | none => (close.run.run d).2) d

theorem after_counts (rs : List Request) (h : Counts tag d₀ d) : Counts tag d₀ (after d (rs.map some)) := by
  induction rs generalizing d with
  | nil => exact h
  | cons r rs ih => exact ih (serve_counts r d h)

def lastFlush (d : Desk Context StreamWriter) : Except Failure Nat × Desk Context StreamWriter :=
  (flush .frame).run.run { d with object := { d.object with closing := true } }

/-- The writer once closing was tried. -/
def shut (d : Desk Context StreamWriter) : Desk Context StreamWriter := { d with object := { d.object with closing := false, closed := true } }

theorem close_run (h : d.object.closed = false) : (close.run.run d).2 =
    if d.object.closesSink && (lastFlush d).1.isOk then (closeSink.run.run (shut (lastFlush d).2)).2 else shut (lastFlush d).2 := by
  unfold close
  rw [Gives.run_bind (.object d), if_neg (by rw [h]; exact Bool.false_ne_true), Gives.run_bind (.modifyObject _ _)]
  rcases hflush : lastFlush d with ⟨e | n, d'⟩
  · rw [run_bind_error (run_tryFinally_error (run_bind_error hflush) (.modifyObject _ _))]
    cases d.object.closesSink <;> rfl
  · rw [Gives.run_bind (.tried (.bind hflush (.pure () d')) (.modifyObject _ _))]
    cases d.object.closesSink <;> rfl

theorem close_counts (h : Counts tag d₀ d) (hopen : d.object.closed = false) :
    (close.run.run d).2.object.closed = true ∧
      (close.run.run d).2.object.total = (joined (received tag (close.run.run d).2.log)).size ∧
      closings tag (close.run.run d).2.log =
        closings tag d₀.log + if d₀.object.closesSink && d₀.sink.canClose && (lastFlush d).1.isOk then 1 else 0 := by
  have hlast : Counts tag d₀ (lastFlush d).2 := serve_counts (.flush .frame) _ { h with }
  rw [close_run hopen, h.closesSink, ← hlast.canClose]
  generalize (lastFlush d).1.isOk = ok
  rcases d₀.object.closesSink with _ | _
  · exact ⟨rfl, hlast.total, hlast.closings⟩
  rcases ok with _ | _
  · simp only [Bool.and_false]
    exact ⟨rfl, hlast.total, hlast.closings⟩
  have hrun : (closeSink.run.run (shut (lastFlush d).2)).2 = if (lastFlush d).2.sink.canClose then
      { shut (lastFlush d).2 with log := (lastFlush d).2.log.push (.close tag) } else shut (lastFlush d).2 := by
    refine (congrArg Prod.snd (Gives.modifies _ _)).trans ?_
    dsimp only [shut, Sink.close]
    rw [hlast.kind]
    rfl
  rw [if_pos (show (true && true) = true from rfl), hrun]
  rcases (lastFlush d).2.sink.canClose with _ | _
  · exact ⟨rfl, hlast.total, hlast.closings⟩
  · refine ⟨rfl, hlast.total.trans (by simp [received]), ?_⟩
    rw [← hlast.closings]
    simp [Pipe.closings]

theorem serve_closed (h : d.object.closed = true) (r : Request) : (serve r).run.run d = (.error .closed, d) := by
  obtain ⟨codec, w, source, sink, log⟩ := d
  obtain ⟨room, returnRead, closesSink, entered, closing, closed, total, written⟩ := w
  cases h
  cases r <;> rfl

theorem after_closed (h : d.object.closed = true) (os : List (Option Request)) : after d os = d := by
  induction os with
  | nil => rfl
  | cons o os ih =>
    refine Eq.trans ?_ ih
    cases o with
    | some r => exact congrArg (after · os) (congrArg Prod.snd (serve_closed h r))
    | none =>
      obtain ⟨codec, w, source, sink, log⟩ := d
      obtain ⟨room, returnRead, closesSink, entered, closing, closed, total, written⟩ := w
      cases h
      rfl

end StreamWriter

end ZstCodec.Compress

namespace ZstCodec.Session

open Compress Compress.StreamWriter Pipe

/-- What a writer says: how much it has written, and whether it is closed. -/
def Reports (d : Desk Context StreamWriter) (total : Nat) (closed : Bool) : Prop :=
  ∀ self owner w, (callCompressWriter self owner d.object d.sink { method := "tell", args := [] }).run.run w = (.ok (.nat total), w) ∧
    (property (.compressWriter owner d.object d.sink) "closed").run.run w = (.ok (.bool closed), w)

theorem reports_self (d : Desk Context StreamWriter) : Reports d d.object.total d.object.closed := fun _ _ _ => ⟨rfl, rfl⟩

/-- Whatever of its sink fails, a writer always tells the size of all that its sink has taken. Once closing was tried, it
is closed and refuses all requests, and nothing reaches the sink any more. The sink is closed at most once, and just if
the writer has to close it, it can be closed and the last flush did not fail. -/
theorem writer_accounts (x : Context) (room : Nat) (returnRead closesSink : Bool) (source : Source) (sink : Sink) (tag : String)
    (before : List Request) (later : List (Option Request)) :
    let d := after ⟨x, { room, returnRead, closesSink }, source, { sink with kind := .noted tag }, #[]⟩ (before.map some)
    let d' := after d (none :: later)
    Reports d (joined (received tag d.log)).size false ∧ closings tag d.log = 0 ∧
      Reports d' (joined (received tag d'.log)).size true ∧ (∀ r, ∃ e : Failure, e.kind = .value ∧ (serve r).run.run d' = (.error e, d')) ∧
      d' = after d [none] ∧ closings tag d'.log = if closesSink && sink.canClose && (lastFlush d).1.isOk then 1 else 0 := by
  intro d d'
  have hcounts : Counts tag ⟨x, { room, returnRead, closesSink }, source, { sink with kind := .noted tag }, #[]⟩ d :=
    after_counts before ⟨rfl, rfl, rfl, rfl, rfl, rfl⟩
  obtain ⟨hclosed, htotal, hclosings⟩ := close_counts hcounts hcounts.closed
  have hd' : d' = (close.run.run d).2 := after_closed hclosed later
  have hreports := reports_self d
  have hreports' := reports_self d'
  rw [hcounts.total, hcounts.closed] at hreports
  rw [hd', htotal, hclosed] at hreports'
  rw [hd']
  refine ⟨hreports, hcounts.closings, hreports', fun r => ⟨.closed, rfl, serve_closed hclosed r⟩, rfl, ?_⟩
  rw [hclosings]
  exact Nat.zero_add _

end ZstCodec.Session
