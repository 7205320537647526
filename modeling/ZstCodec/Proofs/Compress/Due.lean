import ZstCodec.Proofs.Compress.Feed

/-! # What is still to come

The settings, the dictionary, the size promised and the bytes fed settle what output of a frame is still *due*: what
will be given if the rest is fed and the frame then ended. Every call gives a piece of it and leaves the rest due,
however the input is cut and however little room there is. -/

namespace ZstCodec.Compress

open Pipe

variable {s : Settings} {D : DictionaryChoice} {k k' : Intake} {R : ByteArray} {rest : List UInt8}

variable {input v : ByteArray} {xs ys : List UInt8} {room : Nat} {w : Writer}

/-! ### From an intake -/

/-- If `rest` is taken and the frame then ended, the output is `R`. -/
def Intake.Due (k : Intake) (rest : List UInt8) (R : ByteArray) : Prop :=
  ∃ w r data out k' bytes last, k.Follows w r data out ∧
    (w.plan.pledged = none ∨ w.plan.pledged = some (data.size + rest.length)) ∧ w.plan.jobs = none ∧
    k.take rest = .ok (k', bytes) ∧ k'.finish = .ok last ∧ R = bytes ++ last

theorem Intake.allows_of_pledged (hp : w.plan.pledged = none ∨ w.plan.pledged = some (m + n)) :
    Intake.Allows w (m + n) := by
  intro l hl
  simp_all

theorem Intake.Follows.due (h : k.Follows w r data out) (rest : List UInt8)
    (hp : w.plan.pledged = none ∨ w.plan.pledged = some (data.size + rest.length)) (hj : w.plan.jobs = none) : ∃ R, k.Due rest R := by
  obtain ⟨k', bytes, htake, hf, -⟩ := h.take rest (Intake.allows_of_pledged hp)
  have hsize : (data ++ rest.toByteArray).size = data.size + rest.length := by
    rw [size_append]
    simp
  obtain ⟨last, hfin, -, -⟩ := hf.finish (by rwa [hsize])
  exact ⟨_, w, r, data, out, k', bytes, last, h, hp, hj, htake, hfin, rfl⟩

namespace Intake

theorem headerDue_le (k : Intake) : k.headerDue ≤ mostHeader := by
  unfold headerDue
  split <;> omega

theorem Due.take (h : k.Due (xs ++ ys) R) :
    ∃ k' bytes R', k.take xs = .ok (k', bytes) ∧ k'.Due ys R' ∧ R = bytes ++ R' ∧
      bytes.size ≤ mostHeader + 4 * (k.pending.size + xs.length) := by
  obtain ⟨w, r, data, out, k₂, bytes, last, hf, hp, hj, htake, hfin, rfl⟩ := h
  obtain ⟨k₁, bytes₁, bytes₂, h1, h2, rfl⟩ := take_of_append htake
  rw [List.length_append] at hp
  have ha : Allows w (data.size + xs.length) := fun m hm => le_trans (by omega) (allows_of_pledged hp m hm)
  obtain ⟨k', bytes', h1', hf', hle⟩ := hf.take xs ha
  cases h1.symm.trans h1'
  have hdue := k.headerDue_le
  have hsize : (data ++ xs.toByteArray).size = data.size + xs.length := by
    rw [size_append]
    simp
  exact ⟨k₁, bytes₁, bytes₂ ++ last, h1, ⟨w, r, _, _, k₂, bytes₂, last, hf', by rw [hsize, add_assoc]; exact hp, hj, h2, hfin, rfl⟩,
    append_assoc, by omega⟩

/-- What is due is not much more than what is to be written. -/
theorem Due.size_le (h : k.Due rest R) : R.size ≤ mostHeader + 4 * (k.pending.size + rest.length) + 7 := by
  obtain ⟨w, r, data, out, k', bytes, last, hf, hp, hj, htake, hfin, rfl⟩ := h
  obtain ⟨k₁, bytes₁, htake₁, hf', hle⟩ := hf.take rest (allows_of_pledged hp)
  have hsize : (data ++ rest.toByteArray).size = data.size + rest.length := by
    rw [size_append]
    simp
  obtain ⟨last', hfin', -, hle'⟩ := hf'.finish (by rwa [hsize])
  grind [headerDue_le]

theorem Due.finish (h : k.Due [] R) : k.finish = .ok R ∧ k.writer.plan.jobs = none ∧
    R.size ≤ mostHeader + 4 * k.pending.size + 7 := by
  obtain ⟨w, r, data, out, k', bytes, last, hf, hp, hj, htake, hfin, rfl⟩ := h
  cases htake
  rw [empty_append]
  obtain ⟨last', hfin', -, hle⟩ := hf.finish hp
  cases hfin.symm.trans hfin'
  have hdue := k.headerDue_le
  exact ⟨hfin, hf.plan.symm ▸ hj, by omega⟩

end Intake

/-! ### At the start -/

namespace DictionaryChoice

/-- A dictionary that is ready for use. -/
def Ready : DictionaryChoice → Prop
  | none => True
  | loaded .. => False
  | own d | prepared d => d.Prepared ∧ d.size < 2 ^ 63

/-- The offsets that a reader remembers at the start. -/
def reps : DictionaryChoice → Reps
  | own d | prepared d => d.reps
  | _ => .start

end DictionaryChoice

namespace Context

variable {x : Context}

/-- A frame starts with a sound writer, which was promised what the frame was. -/
theorem firstIntake_follows (hs : s.Valid) (hD : D.Ready) (pledged : Option Nat) :
    (firstIntake s D pledged).Follows (firstIntake s D pledged).writer D.reps .empty .empty ∧
      (firstIntake s D pledged).writer.plan.pledged = pledged ∧
      (s.workers = 0 → (firstIntake s D pledged).writer.plan.jobs = none) := by
  have hjobs (t : Tuning) (h : s.workers = 0) : Jobs.of s t pledged = none := by
    unfold Jobs.of
    split
    · rfl
    · rw [h]
      rfl
  have hstart (w : Writer) (r : Reps) (h : w.Begins r) :
      (Running.start_ w).intake.Follows (Running.start_ w).intake.writer r .empty .empty := by
    refine ⟨h, rfl, rfl, rfl, ?_, .inl ⟨h.stage, h.consumed⟩, ⟨.empty, r, ?_, ?_, h.sound⟩, ?_⟩
    · show w.consumed + 0 = 0
      rw [h.consumed]
    · rw [show (Running.start_ w).intake.writer.stage = .beforeHeader from h.stage, if_pos rfl]
      rfl
    · rw [show (Running.start_ w).intake.writer.origin = (Running.start_ w).intake.writer.finder.content.size from h.origin]
      exact .nil _ _
    · exact room_start w
  cases D with
  | none =>
    refine ⟨hstart _ _ ⟨startPlain_sound hs pledged, rfl, rfl, ?_⟩, rfl, hjobs _⟩
    exact Match.Finder.size_emptyContent.symm
  | loaded => exact hD.elim
  | own d => exact ⟨hstart _ _ ⟨startWith_sound hs hD.1 hD.2 _ pledged, rfl, rfl, rfl⟩, rfl, hjobs _⟩
  | prepared d => exact ⟨hstart _ _ ⟨startWith_sound hs hD.1 hD.2 _ pledged, rfl, rfl, rfl⟩, rfl, hjobs _⟩

/-! ### From a compressor -/

/-- If `rest` is fed and the frame then ended, the output is `R`. -/
def Due (x : Context) (s : Settings) (D : DictionaryChoice) (rest : List UInt8) (R : ByteArray) : Prop :=
  x.Has s D ∧ if rest = [] then x.Finishes s D R else ∃ k v R', x.At s D k v ∧ k.Due rest R' ∧ R = v ++ R'

theorem AtEnd.finishes (hat : x.AtEnd s D k v) (h : k.Due [] R) : x.Finishes s D (v ++ R) := by
  obtain ⟨hfin, hj, hle⟩ := h.finish
  exact .inr ⟨k, v, R, hat, hfin, .inl hj, hle, rfl⟩

/-- The output of a whole frame. -/
def frameOf (s : Settings) (D : DictionaryChoice) (pledged : Option Nat) (data : ByteArray) : Except Fault ByteArray :=
  if data.size = 0 then (firstIntake s D (some 0)).finish
  else do
    let (k, out) ← (firstIntake s D pledged).take data.data.toList
    return out ++ (← k.finish)

theorem Idle.due {pledged : Option Nat} (h : x.Idle pledged) (hx : x.Has s D) (hs : s.Valid) (hw : s.workers = 0)
    (hD : D.Ready) (data : ByteArray) (hp : pledged = none ∨ pledged = some data.size) :
    ∃ R, frameOf s D pledged data = .ok R ∧ x.Due s D data.data.toList R := by
  have hlen : data.data.toList.length = data.size := Running.length_toList data
  by_cases h0 : data.size = 0
  · have hnil : data.data.toList = [] := List.length_eq_zero_iff.1 (hlen.trans h0)
    obtain ⟨hf, hpl, hj⟩ := firstIntake_follows hs hD (some 0)
    obtain ⟨R, hR⟩ := hf.due [] (.inr hpl) (hj hw)
    refine ⟨R, ?_, hx, ?_⟩
    · rw [frameOf, if_pos h0]
      exact hR.finish.1
    · rw [if_pos hnil]
      have hfin := AtEnd.finishes (.inr ⟨h.running, rfl, rfl⟩) hR
      rwa [empty_append] at hfin
  · have hne : data.data.toList ≠ [] := fun hnil => h0 (by rw [← hlen, hnil]; rfl)
    obtain ⟨hf, hpl, hj⟩ := firstIntake_follows hs hD pledged
    obtain ⟨R, hR⟩ := hf.due data.data.toList (by
      simp_all) (hj hw)
    refine ⟨R, ?_, hx, ?_⟩
    · obtain ⟨w, r, data', out, k', bytes, last, -, -, -, htake, hfin, rfl⟩ := hR
      rw [frameOf, if_neg h0, htake]
      show (do return bytes ++ (← k'.finish)) = _
      rw [hfin]
      rfl
    · rw [if_neg hne]
      exact ⟨_, .empty, R, .inr ⟨pledged, h, rfl, rfl⟩, hR, empty_append.symm⟩

theorem Due.takes (hne : xs ≠ []) (h : x.Due s D (xs ++ ys) R) :
    ∃ k R₁ R₂, x.Takes s D xs k R₁ ∧ k.Due ys R₂ ∧ R = R₁ ++ R₂ ∧ R₁.size < x.effort xs.length := by
  obtain ⟨hx, h⟩ := h
  rw [if_neg (by simp [hne])] at h
  obtain ⟨k₀, v, R', hat, hdue, rfl⟩ := h
  obtain ⟨k, bytes, R₂, htake, hdue', rfl, hle⟩ := hdue.take
  refine ⟨k, v ++ bytes, R₂, ⟨k₀, v, bytes, hat, htake, rfl⟩, hdue', append_assoc.symm, ?_⟩
  have hb := hat.backlog
  grind [mostHeader, effort]

theorem Due.of_at (hx : x.Has s D) (hat : x.At s D k v) (hrun : ys = [] → x.running.isSome)
    (hdue : k.Due ys R) : x.Due s D ys (v ++ R) := by
  refine ⟨hx, ?_⟩
  split
  · rename_i hys
    subst hys
    exact AtEnd.finishes (.inl (hat.open_of_running (hrun rfl))) hdue
  · exact ⟨k, v, R, hat, hdue, rfl⟩

theorem Due.more (free : Nat) (hp : pos < input.size)
    (h : x.Due s D ((slice input pos input.size).data.toList ++ ys) R) :
    ∃ x' o R' n, x.run input pos free .more = (x', o) ∧ x'.Due s D ((slice input o.pos input.size).data.toList ++ ys) R' ∧
      pos ≤ o.pos ∧ o.pos ≤ input.size ∧ o.out ++ R' = R ∧ o.out.size ≤ free ∧ (o.pos < input.size → o.out.size = free) ∧
      o.result = .ok n := by
  have hlen := Running.length_toList (slice input pos input.size)
  have hsplit : (slice input pos input.size).data.toList ++ ys ≠ [] := by
    intro hnil
    rw [(List.append_eq_nil_iff.1 hnil).1, size_slice, List.length_nil] at hlen
    omega
  obtain ⟨hx, h⟩ := h
  rw [if_neg hsplit] at h
  obtain ⟨k₀, v, R', hat, hdue, rfl⟩ := h
  obtain ⟨k, bytes, -, htake, -, -, -⟩ := hdue.take
  obtain ⟨x', o, n, k₁, w₁, bytes₁, hrun, hres, hx', hopen, htake₁, hout, h1, h2, hle, hfull⟩ :=
    run_more free hx (le_of_lt hp) hat htake
  rw [← slice_append_slice h1 h2, toList_append, List.append_assoc] at hdue
  obtain ⟨k₂, bytes₂, R₂, htake₂, hdue₂, rfl, -⟩ := hdue.take
  cases htake₁.symm.trans htake₂
  obtain ⟨r, hr, -⟩ := id hopen
  refine ⟨x', o, w₁ ++ R₂, n, hrun, .of_at hx' (.inl hopen) (fun _ => by rw [hr]; rfl) hdue₂, h1, h2, ?_, hle, hfull, hres⟩
  rw [← append_assoc, hout, append_assoc]

theorem Due.finish (free : Nat) (h : x.Due s D [] R) :
    ∃ x' o R' n, x.run .empty 0 free .finish = (x', o) ∧ o.out ++ R' = R ∧ o.out.size ≤ free ∧ o.result = .ok n ∧ o.pos = 0 ∧
      (n = 0 ∧ R' = .empty ∨ n ≠ 0 ∧ o.out.size = free ∧ x'.Due s D [] R') := by
  obtain ⟨x', o, R', n, hrun, hx', hout, hle, hres, hpos, hcase⟩ := run_finish free h.1 h.2
  exact ⟨x', o, R', n, hrun, hout, hle, hres, hpos, hcase.imp (fun h => ⟨h.1, h.2.1⟩) fun h => ⟨h.1, h.2.1, hx', h.2.2⟩⟩

theorem Due.size_lt (h : x.Due s D rest R) : R.size < x.effort rest.length := by
  by_cases hne : rest = []
  · subst hne
    exact h.2.size_lt
  · obtain ⟨hx, h⟩ := h
    rw [if_neg hne] at h
    obtain ⟨k, v, R', hat, hdue, rfl⟩ := h
    have hle := hdue.size_le
    grind [mostHeader, effort, At.backlog]

end Context

/-! ### Feeding and ending -/

end ZstCodec.Compress
