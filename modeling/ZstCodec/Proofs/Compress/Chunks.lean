import ZstCodec.Proofs.Compress.Agreement
import ZstCodec.Proofs.Compress.Use

/-! # Chunks of one size

A chunker and a compression object that are asked for the same give the same bytes (`chunks_uniform`), though with
different room: at any time the two compressors hold the same intake, and of what it has written each has given some and
keeps the rest. Only the last chunk of a flush or of the end may be short. -/

namespace ZstCodec.Compress

open Pipe Pipe.Act

variable {s : Settings} {D : DictionaryChoice} {x : Context} {k k' : Intake} {data T given bytes c : ByteArray} {going : Bool} {pledged : Option Nat}

/-! ### What has been given -/

namespace Context

/-- The intake is `k`, and of the output `T` so far `given` has been handed out. -/
def Gave (x : Context) (s : Settings) (D : DictionaryChoice) (k : Intake) (T given : ByteArray) (going : Bool) : Prop :=
  x.Has s D ∧ x.running.isSome = going ∧ ∃ v, x.At s D k v ∧ given ++ v = T

/-- The end of a frame that is under way, or of one without content, gives `bytes`. -/
def Ends (s : Settings) (D : DictionaryChoice) (k : Intake) (going : Bool) (bytes : ByteArray) : Prop :=
  (if going then k else firstIntake s D (some 0)).finish = .ok bytes ∧ (if going then k else firstIntake s D (some 0)).Undivided ∧
    bytes.size ≤ mostHeader + 4 * (if going then k else firstIntake s D (some 0)).pending.size + 7

theorem Gave.finishes (h : x.Gave s D k T given going) (he : Ends s D k going bytes) :
    ∃ R, x.Has s D ∧ x.Finishes s D R ∧ given ++ R = T ++ bytes := by
  obtain ⟨hx, hgoing, v, hat, rfl⟩ := h
  obtain ⟨hfin, hj, hle⟩ := he
  refine ⟨v ++ bytes, hx, .inr ⟨_, v, bytes, ?_, hfin, hj, hle, rfl⟩, append_assoc.symm⟩
  cases going with
  | true => exact .inl (hat.open_of_running hgoing)
  | false =>
    rcases hat with ⟨r, hr, -⟩ | ⟨p, hi, -, rfl⟩
    · rw [hr] at hgoing
      cases hgoing
    · exact .inr ⟨hi.running, rfl, rfl⟩

theorem ends_of_follows (hs : s.Valid) (hD : D.Ready) (hp : pledged = none ∨ pledged = some data.size)
    (hk : k.Follows (firstIntake s D pledged).writer D.reps data T) (going : Bool) :
    ∃ bytes, Ends s D k going bytes ∧ if going then (firstIntake s D pledged).writer.Frames D.reps data (T ++ bytes)
      else (firstIntake s D (some 0)).writer.Frames D.reps .empty bytes := by
  cases going with
  | true =>
    obtain ⟨bytes, hfin, hj, hle, hframes⟩ := frames_of_finish hs hD hp hk
    exact ⟨bytes, ⟨hfin, hj, hle⟩, hframes⟩
  | false =>
    obtain ⟨bytes, hfin, hj, hle, hframes⟩ := frames_of_finish hs hD (.inr (show some 0 = some ByteArray.empty.size from rfl))
      (firstIntake_follows hs hD (some 0)).1
    exact ⟨bytes, ⟨hfin, hj, hle⟩, by rwa [empty_append] at hframes⟩

end Context

/-! ### Feeding and draining -/

variable {room : Nat}

theorem feed_gave (hroom : 0 < room) (h : x.Gave s D k T given going) (htake : k.take c.data.toList = .ok (k', bytes))
    (hle : bytes.size ≤ mostHeader + 4 * (k.pending.size + c.size)) :
    ∃ x' qs, Passes (fun _ emit => feed c room emit) x qs x' ∧ x'.Gave s D k' (T ++ bytes) (given ++ joined qs) (going || c.size ≠ 0) ∧
      Fitting room qs := by
  by_cases h0 : c.size = 0
  · rw [toList_of_size h0] at htake
    cases htake
    refine ⟨x, [], feed_empty h0, ?_, .nil⟩
    simp_all
  · obtain ⟨hx, hgoing, v, hat, rfl⟩ := h
    have hfew : (v ++ bytes).size < x.effort c.size := by
      rw [size_append, Context.effort, hat.backlog]
      rw [mostHeader] at hle
      omega
    obtain ⟨x', qs, w, hpass, hx', hat', hjoin, hfit, hrun⟩ := feed_passes hroom hx ⟨k, v, bytes, hat, htake, rfl⟩ hfew
    refine ⟨x', qs, hpass, ⟨hx', ?_, w, hat', ?_⟩, hfit⟩
    · simp_all
    · rw [append_assoc, hjoin, append_assoc]

theorem flush_gave (hroom : 0 < room) (doing : Doing) (h : x.Gave s D k T given going) (hflush : k.flush = .ok (k', bytes))
    (hle : bytes.size ≤ mostHeader + 4 * k.pending.size) :
    ∃ x' qs, Passes (fun _ emit => drain .flush doing room emit) x qs x' ∧ x'.Gave s D k' (T ++ bytes) (given ++ joined qs) true ∧
      Fitting room qs := by
  obtain ⟨hx, hgoing, v, hat, rfl⟩ := h
  have hfew : (v ++ bytes).size < x.effort 0 := by
    rw [size_append, Context.effort, hat.backlog]
    rw [mostHeader] at hle
    omega
  obtain ⟨x', qs, hpass, ⟨hx', r, hr, hh, hopen⟩, hjoin, hfit⟩ := drain_passes hroom doing (drains_flush s D k')
    ⟨hx, k, v, bytes, hat, hflush, rfl⟩ hfew
  refine ⟨x', qs, hpass, ⟨hx', by rw [hr]; rfl, .empty, .inl ⟨r, hr, hh, hopen⟩, ?_⟩, hfit⟩
  rw [append_empty, append_assoc, hjoin]

theorem finish_gave (hroom : 0 < room) (doing : Doing) (h : x.Gave s D k T given going) (he : Context.Ends s D k going bytes) :
    ∃ x' qs, Passes (fun _ emit => drain .finish doing room emit) x qs x' ∧ (x'.Has s D ∧ x'.Idle none) ∧ given ++ joined qs = T ++ bytes ∧
      Fitting room qs := by
  obtain ⟨R, hx, hfin, hjoin⟩ := h.finishes he
  obtain ⟨x', qs, hpass, hidle, rfl, hfit⟩ := drain_passes hroom doing (drains_finish s D) ⟨hx, hfin⟩ hfin.size_lt
  exact ⟨x', qs, hpass, hidle, hjoin, hfit⟩

/-! ### Objects -/

namespace Object

/-- What an object is asked for where a chunker is given a task. -/
def perform : Chunker.Task → Object.Action ByteArray
  | .compress data => compress data
  | .flush => flush .block
  | .finish => flush .frame

def performAll : List Chunker.Task → Object.Action (List ByteArray)
  | [] => return []
  | task :: tasks => do
    let b ← perform task
    return b :: (← performAll tasks)

theorem recommendedRoom_pos : 0 < recommendedRoom := by decide

end Object

/-! ### Chunkers -/

namespace Chunker

variable {d : Desk Context Chunker}

section

variable (hr : d.object.Ready) (h : d.codec.Gave s D k T (given ++ d.object.out) going)

include hr h

theorem compress_gave (htake : k.take c.data.toList = .ok (k', bytes)) :
    ∃ bs run d', Yields Next ({ task := .compress (.ok c) }, d) bs (run, d') ∧ d'.object.Ready ∧ d'.object.chunkSize = d.object.chunkSize ∧
      (∀ b ∈ bs, b.size = d.object.chunkSize) ∧
      d'.codec.Gave s D k' (T ++ bytes) (given ++ joined bs ++ d'.object.out) (going || c.size ≠ 0) := by
  obtain ⟨hx, hgoing, v, hat, rfl⟩ := h
  by_cases h0 : c.size = 0
  · rw [toList_of_size h0] at htake
    cases htake
    refine ⟨[], _, d, .done (compress_empty hr h0), hr, rfl, by simp, hx, ?_, v, hat, ?_⟩
    · simp_all
    simp
  · obtain ⟨bs, run, d', out, w, hy, hobj, hr', ⟨hx', hat', hrun⟩, hjoin, hall⟩ := compress_yields hr hx h0 ⟨k, v, bytes, hat, htake, rfl⟩
    refine ⟨bs, run, d', hy, hr', by rw [hobj], hall, hx', ?_, w, hat', ?_⟩
    · simp_all
    simp_all [append_assoc]

theorem flush_gave (hflush : k.flush = .ok (k', bytes)) :
    ∃ bs run d', Yields Next ({ task := .flush }, d) bs (run, d') ∧ d'.object.Ready ∧ d'.object.chunkSize = d.object.chunkSize ∧
      Uniform d.object.chunkSize bs ∧ d'.codec.Gave s D k' (T ++ bytes) (given ++ joined bs ++ d'.object.out) true := by
  obtain ⟨hx, hgoing, v, hat, rfl⟩ := h
  obtain ⟨bs, run, d', hy, ⟨hx', r, hrun, hh, hroom⟩, hobj, hjoin, hall⟩ := drain_yields (.inl ⟨rfl, rfl⟩) (drains_flush s D k') hr
    ⟨hx, k, v, bytes, hat, hflush, rfl⟩
  refine ⟨bs, run, d', hy, ?_, by rw [hobj], hall, hx', by rw [hrun]; rfl, .empty, .inl ⟨r, hrun, hh, hroom⟩, ?_⟩
  · rw [hobj]
    exact ⟨hr.input, rfl, Nat.lt_of_le_of_lt (Nat.zero_le _) hr.out⟩
  simp_all [append_assoc]

theorem finish_gave (he : Context.Ends s D k going bytes) :
    ∃ bs run d', Yields Next ({ task := .finish }, d) bs (run, d') ∧ d'.object.finished = true ∧ Uniform d.object.chunkSize bs ∧
      given ++ joined bs = T ++ bytes := by
  obtain ⟨R, hx, hfin, hjoin⟩ := h.finishes he
  obtain ⟨bs, run, d', hy, -, hobj, hjoin', hall⟩ := drain_yields (.inr ⟨rfl, rfl⟩) (drains_finish s D) hr ⟨hx, hfin⟩
  grind [append_assoc]

end

def Task.of : Option ByteArray → Task
  | some c => .compress (.ok c)
  | none => .flush

/-- Runs of the tasks, one after the other and each to its end, yield these chunks. -/
inductive Performs : List Task → Desk Context Chunker → List (List ByteArray) → Desk Context Chunker → Prop
  | nil {d : Desk Context Chunker} : Performs [] d [] d
  | cons {task : Task} {tasks : List Task} {d d' d'' : Desk Context Chunker} {run : Run} {bs : List ByteArray} {css : List (List ByteArray)} :
      Yields Next ({ task }, d) bs (run, d') → Performs tasks d' css d'' → Performs (task :: tasks) d (bs :: css) d''

/-- The chunks that a task may yield. Only a flush or the end may give a short one, as the last. -/
def Task.Cuts (chunkSize : Nat) : Task → List ByteArray → Prop
  | .compress _, bs => ∀ b ∈ bs, b.size = chunkSize
  | _, bs => Uniform chunkSize bs

def Task.name : Task → String
  | .compress _ => "compress"
  | .flush => "flush"
  | .finish => "finish"

theorem next_finished (h : d.object.finished = true) (task : Task) : (next { task }).run.run d = (.error (.chunkerFinished task.name), d) := by
  obtain ⟨codec, ⟨chunkSize, out, input, finished⟩, source, sink, log⟩ := d
  cases h
  cases task <;> rfl

variable {given' : ByteArray} {e : Desk Context Object}

/-- A chunker and an object with the same intake go on to give the same. -/
theorem performs_gave (hs : s.Valid) (hD : D.Ready) (ops : List (Option ByteArray))
    (hp : pledged = none ∨ pledged = some (data ++ joined (ops.filterMap id)).size) (hr : d.object.Ready) (hnew : e.object = {})
    (hk : k.Follows (Context.firstIntake s D pledged).writer D.reps data T) (hd : d.codec.Gave s D k T (given ++ d.object.out) going)
    (he : e.codec.Gave s D k T given' going) :
    ∃ css d' bs e', Performs (ops.map Task.of ++ [.finish]) d css d' ∧ (Object.performAll (ops.map Task.of ++ [.finish])).Gives e bs e' ∧
      List.Forall₂ (Task.Cuts d.object.chunkSize) (ops.map Task.of ++ [.finish]) css ∧ given ++ joined css.flatten = given' ++ joined bs ∧
      d'.object.finished = true := by
  have hpledged := (Context.firstIntake_follows hs hD pledged).2.1
  induction ops generalizing d e data k T given given' going with
  | nil =>
    rw [List.filterMap_nil, joined_nil, append_empty] at hp
    obtain ⟨bytes, hend, -⟩ := Context.ends_of_follows hs hD hp hk going
    obtain ⟨bs, run, d', hy, hfinished, hall, hjoin⟩ := finish_gave hr hd hend
    obtain ⟨x', qs, hpass, -, hjoin', -⟩ := Compress.finish_gave Object.recommendedRoom_pos .endingStream he hend
    obtain ⟨_, e', hgives, rfl, -, -⟩ := Object.flush_does .frame hnew hpass
    refine ⟨[bs], d', [joined qs], e', .cons hy .nil, .bind hgives (.bind (.pure _ _) (.pure _ _)), .cons hall .nil, ?_, hfinished⟩
    simp_all
  | cons op ops ih =>
    have hallows (n : Nat) (hn : (Context.firstIntake s D pledged).writer.plan.pledged = some n) :
        n = (data ++ joined ((op :: ops).filterMap id)).size := by
      rw [hpledged] at hn
      rcases hp with rfl | rfl
      · cases hn
      · exact (Option.some.inj hn).symm
    have hheader := k.headerDue_le
    rcases op with _ | c
    · obtain ⟨k', bytes, hflush, hk', -, hle⟩ := hk.flush fun n hn => by
        grind
      obtain ⟨bs, run, d₁, hy, hr₁, hsize, hall, hd₁⟩ := flush_gave hr hd hflush
      obtain ⟨x', qs, hpass, he₁, -⟩ := Compress.flush_gave Object.recommendedRoom_pos .endingStream he hflush (by omega)
      obtain ⟨_, e₁, hgives, rfl, rfl, hobj⟩ := Object.flush_does .block hnew hpass
      obtain ⟨css, d', bs', e', hperf, hgives', hcuts, hjoin, hfinished⟩ := ih hp hr₁ hobj hk' hd₁ he₁
      rw [hsize] at hcuts
      refine ⟨bs :: css, d', joined qs :: bs', e', .cons hy hperf, .bind hgives (.bind hgives' (.pure _ _)), .cons hall hcuts, ?_, hfinished⟩
      grind [joined_append, joined_cons, append_assoc]
    · have hcons : joined ((some c :: ops).filterMap id) = c ++ joined (ops.filterMap id) := joined_cons _ _
      rw [hcons, ← append_assoc] at hp hallows
      obtain ⟨k', bytes, htake, hk', hle⟩ := hk.take c.data.toList fun n hn => by
        rw [hallows n hn, Running.length_toList, size_append, size_append]
        exact Nat.le_add_right _ _
      rw [Running.data_toList_toByteArray] at hk'
      rw [Running.length_toList] at hle
      obtain ⟨bs, run, d₁, hy, hr₁, hsize, hall, hd₁⟩ := compress_gave hr hd htake
      obtain ⟨x', qs, hpass, he₁, -⟩ := feed_gave Object.recommendedRoom_pos he htake (by omega)
      obtain ⟨_, e₁, hgives, rfl, rfl, hobj⟩ := Object.compress_does hnew hpass
      obtain ⟨css, d', bs', e', hperf, hgives', hcuts, hjoin, hfinished⟩ := ih hp hr₁ hobj hk' hd₁ he₁
      rw [hsize] at hcuts
      refine ⟨bs :: css, d', joined qs :: bs', e', .cons hy hperf, .bind hgives (.bind hgives' (.pure _ _)), .cons hall hcuts, ?_, hfinished⟩
      grind [joined_append, joined_cons, append_assoc]

end Chunker

/-- Whatever is fed and wherever is flushed, a chunker yields chunks of one size, which join to what a compression object
gives, and then refuses everything. -/
theorem chunks_uniform {dict : Option Session.HeldDictionary} {x₀ : Context} (hmade : Session.CompressorMade dict x₀)
    (hD : Context.prepare x₀.settings x₀.dictionary = .ok D) {x y : Context} (hx : x.Has x₀.settings D) (hy : y.Has x₀.settings D)
    {chunkSize : Nat} (hsize : 1 ≤ chunkSize) (ops : List (Option ByteArray)) {pledged : Option Nat}
    (hp : pledged = none ∨ pledged = some (joined (ops.filterMap id)).size) {source source' : Source} {sink sink' : Sink} {log log' : Log} :
    ∃ css d' bs e', Chunker.Performs (ops.map .of ++ [.finish]) ⟨x.begin pledged, { chunkSize }, source, sink, log⟩ css d' ∧
      (Object.performAll (ops.map .of ++ [.finish])).Gives ⟨y.begin pledged, {}, source', sink', log'⟩ bs e' ∧
      List.Forall₂ (Chunker.Task.Cuts chunkSize) (ops.map .of ++ [.finish]) css ∧ joined css.flatten = joined bs ∧
      ∀ task, (Chunker.next { task }).run.run d' = (.error (.chunkerFinished task.name), d') := by
  have hready := hmade.ready hD
  have hvalid := hmade.spec.1
  have hgave (z : Context) (hz : z.Has x₀.settings D) :
      (z.begin pledged).Gave x₀.settings D (Context.firstIntake x₀.settings D pledged) .empty .empty false :=
    ⟨⟨hz.settings, hz.dictionary⟩, rfl, .empty, .inr ⟨pledged, ⟨rfl, rfl⟩, rfl, rfl⟩, empty_append⟩
  have hnone : (x.begin pledged).Gave x₀.settings D (Context.firstIntake x₀.settings D pledged) .empty (.empty ++ .empty) false := by
    rw [empty_append]
    exact hgave x hx
  obtain ⟨css, d', bs, e', hperf, hgives, hcuts, hjoin, hfinished⟩ := Chunker.performs_gave (d := ⟨x.begin pledged, { chunkSize }, source, sink, log⟩)
    (e := ⟨y.begin pledged, {}, source', sink', log'⟩) hvalid hready ops (by rwa [empty_append]) ⟨rfl, rfl, hsize⟩ rfl
    (Context.firstIntake_follows hvalid hready pledged).1 hnone (hgave y hy)
  grind [empty_append, Chunker.next_finished]

/-- Three bytes, a flush and one byte more, in chunks of two. -/
theorem chunks_uniform_two : ∃ css d' bs e',
    Chunker.Performs [.compress (.ok ⟨#[1, 2, 3]⟩), .flush, .compress (.ok ⟨#[4]⟩), .finish]
      ⟨Context.begin {} none, { chunkSize := 2 }, .buffer .empty, {}, #[]⟩ css d' ∧
    (Object.performAll [.compress (.ok ⟨#[1, 2, 3]⟩), .flush, .compress (.ok ⟨#[4]⟩), .finish]).Gives
      ⟨Context.begin {} none, {}, .buffer .empty, {}, #[]⟩ bs e' ∧ joined css.flatten = joined bs := by
  have hx : Context.Has {} {} .none := ⟨rfl, rfl⟩
  obtain ⟨css, d', bs, e', hperf, hgives, -, hjoin, -⟩ := chunks_uniform (D := .none) .plain rfl hx hx (show 1 ≤ 2 by decide)
    [some ⟨#[1, 2, 3]⟩, none, some ⟨#[4]⟩] (.inl rfl)
  exact ⟨css, d', bs, e', hperf, hgives, hjoin⟩

end ZstCodec.Compress
