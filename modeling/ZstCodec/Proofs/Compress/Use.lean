import ZstCodec.Proofs.Compress.AtOnce

/-! # Compressors in use

A compressor in use has the settings and the dictionary that it was made with (`Used.prepare_eq`). However the input of
a frame is cut, however little room there is and wherever it is flushed, what the calls give is a frame of the input
(`Fed.frames`). -/

namespace ZstCodec.Compress

variable {s : Settings} {D : DictionaryChoice} {pledged : Option Nat} {input data out rest bytes R : ByteArray} {pos : Nat} {directive : Directive}

namespace Context

variable {x x' x'' x₀ : Context} {P : Context → ByteArray → Prop} {Q : Context → Prop}

/-! ### Use -/

/-- The compressor `x₀` after some use: any calls, and frames that are begun or given up. -/
inductive Used (x₀ : Context) : Context → Prop
  | fresh : Used x₀ x₀
  | call {x : Context} (input : ByteArray) (pos free : Nat) (directive : Directive) : Used x₀ x → Used x₀ (x.run input pos free directive).1
  | begin {x : Context} (pledged : Option Nat) : Used x₀ x → Used x₀ (x.begin pledged)
  | reset {x : Context} : Used x₀ x → Used x₀ x.reset

/-- A call keeps the settings, and what becomes of the dictionary once it is prepared. -/
theorem run_prepare (x : Context) (input : ByteArray) (pos free : Nat) (directive : Directive) :
    (x.run input pos free directive).1.settings = x.settings ∧
      prepare x.settings (x.run input pos free directive).1.dictionary = prepare x.settings x.dictionary := by
  unfold run
  dsimp only
  split
  · exact ⟨rfl, rfl⟩
  · rename_i hD
    have h := (prepare_prepared hD).trans hD.symm
    grind

theorem Used.prepare_eq (h : x₀.Used x) :
    x.settings = x₀.settings ∧ prepare x₀.settings x.dictionary = prepare x₀.settings x₀.dictionary := by
  induction h with
  | fresh => exact ⟨rfl, rfl⟩
  | @call x input pos free directive _ ih =>
    grind [run_prepare]
  | begin _ _ ih => exact ih
  | reset _ ih => exact ih

theorem Used.has (h : x₀.Used x) (hD : prepare x₀.settings x₀.dictionary = .ok D) : x.Has x₀.settings D :=
  ⟨h.prepare_eq.1, h.prepare_eq.2.trans hD⟩

/-! ### Frames that are made call by call -/

/-- Calls that bring the input from `pos` on, until all of it is taken. They give `out`. -/
inductive Filled (input : ByteArray) : Nat → Context → ByteArray → Context → Prop
  | last {pos free : Nat} {x x' : Context} {o : Outcome} : x.run input pos free .more = (x', o) → o.pos = input.size →
      Filled input pos x o.out x'
  | next {pos free : Nat} {x x' x'' : Context} {o : Outcome} {out : ByteArray} : x.run input pos free .more = (x', o) → o.pos < input.size →
      Filled input o.pos x' out x'' → Filled input pos x (o.out ++ out) x''

/-- Calls with a directive and without input, until nothing waits. They give `out`. -/
inductive Drained (directive : Directive) : Context → ByteArray → Context → Prop
  | last {free : Nat} {x x' : Context} {o : Outcome} : x.run .empty 0 free directive = (x', o) → o.result = .ok 0 → Drained directive x o.out x'
  | next {free n : Nat} {x x' x'' : Context} {o : Outcome} {out : ByteArray} : x.run .empty 0 free directive = (x', o) → o.result = .ok n →
      n ≠ 0 → Drained directive x' out x'' → Drained directive x (o.out ++ out) x''

/-- The compressor `x₀` has been fed `data`, with flushes anywhere, and has given `out`. -/
inductive Fed (x₀ : Context) : ByteArray → ByteArray → Context → Prop
  | start : Fed x₀ .empty .empty x₀
  | more {x x' : Context} {data out input bytes : ByteArray} : Fed x₀ data out x → Filled input 0 x bytes x' → Fed x₀ (data ++ input) (out ++ bytes) x'
  | flush {x x' : Context} {data out bytes : ByteArray} : Fed x₀ data out x → Drained .flush x bytes x' → Fed x₀ data (out ++ bytes) x'

theorem Used.of_run (hx : x₀.Used x) (h : x.run input pos free directive = (x', o)) : x₀.Used x' := by
  have hcall := hx.call input pos free directive
  rwa [h] at hcall

theorem Filled.used (h : Filled input pos x out x') (hx : x₀.Used x) : x₀.Used x' := by
  induction h with
  | @last pos free x x' o hrun _ => exact hx.of_run hrun
  | @next pos free x x' x'' o out hrun _ _ ih => exact ih (hx.of_run hrun)

theorem Drained.used (h : Drained directive x out x') (hx : x₀.Used x) : x₀.Used x' := by
  induction h with
  | @last free x x' o hrun _ => exact hx.of_run hrun
  | @next free n x x' x'' o out hrun _ _ _ ih => exact ih (hx.of_run hrun)

theorem Fed.used (h : Fed x₀ data out x) : x₀.Used x := by
  induction h with
  | start => exact .fresh
  | more _ hfill ih => exact hfill.used ih
  | flush _ hdrain ih => exact hdrain.used ih

theorem Drained.prepare (h : Drained directive x out x') : ∃ d, prepare x.settings x.dictionary = .ok d := by
  cases h with
  | last hrun hres => grind [prepare_of_run]
  | next hrun hres _ _ => grind [prepare_of_run]

theorem Filled.of_takes (h : Filled input pos x out x') (hp : pos ≤ input.size) (hx : x.Has s D)
    (ht : x.Takes s D (slice input pos input.size).data.toList k R) : x'.Has s D ∧ ∃ v, x'.Open k v ∧ out ++ v = R := by
  induction h generalizing R with
  | @last pos free x x' o hrun hend =>
    obtain ⟨x₁, o₁, R', n, hrun₁, -, hx', ht', hjoin, -, -, -, -, hopen⟩ := ht.more free hx hp
    cases hrun.symm.trans hrun₁
    rw [hend, slice_self] at ht'
    exact ⟨hx', R', ht'.nil.open_of_running hopen, hjoin⟩
  | @next pos free x x' x'' o out hrun hlt _ ih =>
    obtain ⟨x₁, o₁, R', n, hrun₁, -, hx', ht', hjoin, -, hle, -⟩ := ht.more free hx hp
    cases hrun.symm.trans hrun₁
    grind [append_assoc]

theorem Drained.of_drains (h : Drained directive x out x') (hD : Drains directive P Q) (hP : P x R) : out = R ∧ Q x' := by
  induction h generalizing R with
  | @last free x x' o hrun hres =>
    obtain ⟨x₁, o₁, R', n, hrun₁, hjoin, -, hres₁, hcase⟩ := hD free x R hP
    simp_all
  | @next free n x x' x'' o out hrun hres hne _ ih =>
    obtain ⟨x₁, o₁, R', n₁, hrun₁, hjoin, -, hres₁, hcase⟩ := hD free x R hP
    grind

/-- A frame promised the size `p` has taken `data` and given `out`, or nothing has happened yet. -/
def Inside (x : Context) (s : Settings) (D : DictionaryChoice) (p : Option Nat) (data out : ByteArray) : Prop :=
  x.Has s D ∧ (x.Idle p ∧ data = .empty ∧ out = .empty ∨
    ∃ k v, x.Open k v ∧ k.Follows (firstIntake s D p).writer D.reps data (out ++ v))

theorem Inside.at (h : x.Inside s D pledged data out) (hs : s.Valid) (hD : D.Ready) :
    ∃ k v, x.At s D k v ∧ k.Follows (firstIntake s D pledged).writer D.reps data (out ++ v) := by
  obtain ⟨-, ⟨hi, rfl, rfl⟩ | ⟨k, v, hopen, hfollows⟩⟩ := h
  · exact ⟨_, .empty, .inr ⟨pledged, hi, rfl, rfl⟩, (firstIntake_follows hs hD pledged).1⟩
  · exact ⟨k, v, .inl hopen, hfollows⟩

theorem Fed.inside (h : Fed x₀ data out x) (hs : s.Valid) (hD : D.Ready) (hx : x₀.Has s D) (hi : x₀.Idle pledged)
    (hp : ∀ n, pledged = some n → data.size ≤ n) : x.Inside s D pledged data out := by
  have hpledged := (firstIntake_follows hs hD pledged).2.1
  induction h with
  | start => exact ⟨hx, .inl ⟨hi, rfl, rfl⟩⟩
  | @more x x' data out input bytes _ hfill ih =>
    have hsize : (data ++ input).size = data.size + input.size := size_append
    have h := ih fun n hn => by have := hp n hn; omega
    obtain ⟨k, v, hat, hfollows⟩ := h.at hs hD
    obtain ⟨k', bytes', htake, hfollows', -⟩ := hfollows.take input.data.toList fun n hn => by
      simp_all
    obtain ⟨hx', v', hopen, hjoin⟩ := hfill.of_takes (Nat.zero_le _) h.1 ⟨k, v, bytes', hat, by rwa [slice_all], rfl⟩
    rw [Running.data_toList_toByteArray, append_assoc, ← hjoin, ← append_assoc] at hfollows'
    exact ⟨hx', .inr ⟨k', v', hopen, hfollows'⟩⟩
  | @flush x x' data out bytes _ hdrain ih =>
    have h := ih hp
    obtain ⟨k, v, hat, hfollows⟩ := h.at hs hD
    obtain ⟨k', bytes', hflush, hfollows', -⟩ := hfollows.flush fun n hn => hp n (hpledged.symm.trans hn)
    obtain ⟨rfl, hx', hopen⟩ := hdrain.of_drains (drains_flush s D k') ⟨h.1, k, v, bytes', hat, hflush, rfl⟩
    rw [append_assoc] at hfollows'
    exact ⟨hx', .inr ⟨k', .empty, hopen, by rwa [append_empty]⟩⟩

/-- An intake that follows all of its input ends with a whole frame. -/
theorem frames_of_finish {k : Intake} (hs : s.Valid) (hD : D.Ready) (hp : pledged = none ∨ pledged = some data.size)
    (h : k.Follows (firstIntake s D pledged).writer D.reps data out) :
    ∃ bytes, k.finish = .ok bytes ∧ k.Undivided ∧ bytes.size ≤ mostHeader + 4 * k.pending.size + 7 ∧
      (firstIntake s D pledged).writer.Frames D.reps data (out ++ bytes) := by
  have hpledged := (firstIntake_follows hs hD pledged).2.1
  obtain ⟨bytes, hfin, hwhole, hle⟩ := h.finish (by rwa [hpledged])
  have hdue := k.headerDue_le
  refine ⟨bytes, hfin, ?_, by omega, .of_whole h.begins.origin hwhole⟩
  rcases hj : k.writer.plan.jobs with _ | jobs
  · exact .inl hj
  · -- a frame that is to be cut into jobs was promised some content
    obtain ⟨-, n, rfl, hn⟩ := firstIntake_jobs hs hD (h.plan ▸ hj)
    have hsize : n = data.size := Option.some.inj (hp.resolve_left nofun)
    have hconsumed := h.consumed
    rcases h.stage with ⟨-, h0⟩ | hstage
    · exact .inr (.inr (by omega))
    · exact .inr (.inl (by rw [hstage]; decide))

/-- What has been given, up to the end of a frame, is a frame of what was fed. -/
theorem Fed.frames (h : Fed x₀ data out x) (hs : s.Valid) (hD : D.Ready) (hx : x₀.Has s D) (hi : x₀.Idle pledged)
    (hp : pledged = none ∨ pledged = some data.size) (hend : Drained .finish x rest x') :
    ∃ p, (p = none ∨ p = some data.size) ∧ (p = pledged ∨ data.size = 0) ∧ (firstIntake s D p).writer.Frames D.reps data (out ++ rest) := by
  obtain ⟨hx', hcase⟩ := h.inside hs hD hx hi fun n hn => by
    simp_all
  rcases hcase with ⟨hi', rfl, rfl⟩ | ⟨k, v, hopen, hfollows⟩
  · obtain ⟨bytes, hfin, hj, hle, hframes⟩ := frames_of_finish hs hD (.inr (show some 0 = some ByteArray.empty.size from rfl)) (firstIntake_follows hs hD (some 0)).1
    obtain ⟨rfl, -⟩ := hend.of_drains (drains_finish s D) ⟨hx', .inr ⟨_, .empty, bytes, .inr ⟨hi'.running, rfl, rfl⟩, hfin, hj, hle, rfl⟩⟩
    simp_all
  · obtain ⟨bytes, hfin, hj, hle, hframes⟩ := frames_of_finish hs hD hp hfollows
    obtain ⟨rfl, -⟩ := hend.of_drains (drains_finish s D) ⟨hx', .inr ⟨k, v, bytes, .inl hopen, hfin, hj, hle, rfl⟩⟩
    exact ⟨pledged, hp, .inl rfl, by rwa [← append_assoc]⟩

end Context

end ZstCodec.Compress
