import ZstCodec.Proofs.Compress.Start
import ZstCodec.Proofs.Compress.Moved
import ZstCodec.Proofs.Frame.Header

/-! # What a frame under way takes in

How input is cut into blocks depends on the input alone: the *intake* of a frame takes it byte by byte, and writes a
block whenever one is full. After any input the intake *follows* it: what has been written are parts that join to all of
it but the bytes that wait for their block to be full. -/

namespace ZstCodec.Compress

open Match Writer

/-! ### Taking input -/

/-- The part of a frame under way that depends on the input alone. -/
structure Intake where
  writer : Writer
  ring : Nat
  start : Nat
  pending : ByteArray
  target : Nat

def Running.intake (r : Running) : Intake := ⟨r.writer, r.ring, r.start, r.pending, r.target⟩

namespace Intake

def pos (k : Intake) : Nat := k.start + k.pending.size

/-- The block behind this one starts at the front of the ring if it would not fit behind it. -/
def turned (k : Intake) (writer : Writer) : Intake :=
  let block := writer.plan.blockSize
  if k.ring < k.pos + block then ⟨writer, k.ring, 0, .empty, block⟩
  else ⟨writer, k.ring, k.pos, .empty, k.pos + block⟩

def write (k : Intake) : Except Fault (Intake × ByteArray) :=
  match k.writer.add k.start k.pending false with
  | (_, .error e) => .error e
  | (writer, .ok bytes) => .ok (k.turned writer, bytes)

def load (k : Intake) (b : ByteArray) : Intake := { k with pending := k.pending ++ b }

def put (k : Intake) (b : UInt8) : Except Fault (Intake × ByteArray) :=
  let k := k.load [b].toByteArray
  if k.pos < k.target then .ok (k, .empty) else k.write

/-- Take bytes, one by one: what is written on the way. -/
def take (k : Intake) : List UInt8 → Except Fault (Intake × ByteArray)
  | [] => .ok (k, .empty)
  | b :: bs => do
    let (k, out) ← k.put b
    let (k, rest) ← k.take bs
    return (k, out ++ rest)

/-- Write what waits for its block to be full. -/
def flush (k : Intake) : Except Fault (Intake × ByteArray) :=
  if k.pending.size = 0 then .ok (k, .empty) else k.write

/-- Write the last block and what ends the frame. -/
def finish (k : Intake) : Except Fault ByteArray := (k.writer.finish k.start k.pending).2

variable {k k' k'' : Intake} {out out' : ByteArray}

theorem pos_load (k : Intake) (b : ByteArray) : (k.load b).pos = k.pos + b.size := by
  rw [pos, load, size_append, pos, add_assoc]

theorem load_load (k : Intake) (b c : ByteArray) : (k.load b).load c = k.load (b ++ c) := by
  rw [load, load, load, append_assoc]

theorem load_empty (k : Intake) : k.load .empty = k := by rw [load, append_empty]

theorem take_append (xs ys : List UInt8) :
    k.take (xs ++ ys) = do
      let (k, out) ← k.take xs
      let (k, rest) ← k.take ys
      return (k, out ++ rest) := by
  induction xs generalizing k with
  | nil =>
    rw [List.nil_append, take]
    dsimp only [bind, Except.bind]
    rcases k.take ys with _ | ⟨k', out⟩
    · rfl
    · exact congrArg (fun o => Except.ok (k', o)) empty_append.symm
  | cons x xs ih =>
    rw [List.cons_append, take, take]
    dsimp only [bind, Except.bind]
    rcases k.put x with _ | ⟨k₁, out₁⟩
    · rfl
    dsimp only
    rw [ih]
    dsimp only [bind, Except.bind]
    rcases k₁.take xs with _ | ⟨k₂, out₂⟩
    · rfl
    dsimp only [pure, Except.pure]
    rcases k₂.take ys with _ | ⟨k₃, out₃⟩
    · rfl
    simp [append_assoc]

theorem take_of_append (h : k.take (xs ++ ys) = .ok (k'', out)) :
    ∃ k' out₁ out₂, k.take xs = .ok (k', out₁) ∧ k'.take ys = .ok (k'', out₂) ∧ out = out₁ ++ out₂ := by
  rw [take_append] at h
  obtain ⟨⟨k', out₁⟩, h1, h⟩ := ok_of_bind h
  obtain ⟨⟨k₂, out₂⟩, h2, h⟩ := ok_of_bind h
  simp_all

theorem take_of_lt (xs : List UInt8) (h : k.pos + xs.length < k.target) :
    k.take xs = .ok (k.load xs.toByteArray, .empty) := by
  induction xs generalizing k with
  | nil =>
    rw [take, show ([] : List UInt8).toByteArray = .empty from rfl, load_empty]
  | cons x xs ih =>
    have hsize : ([x].toByteArray).size = 1 := by simp
    rw [List.length_cons] at h
    have hput : k.put x = .ok (k.load [x].toByteArray, .empty) := by
      rw [put, if_pos (by rw [pos_load, hsize]; show k.pos + 1 < k.target; omega)]
    rw [take, hput]
    dsimp only [bind, Except.bind]
    rw [ih (by rw [pos_load, hsize]; show k.pos + 1 + xs.length < k.target; omega), load_load]
    dsimp only [pure, Except.pure]
    rw [empty_append, ← List.toByteArray_append]
    rfl

/-- Input that fills the block makes it be written. -/
theorem take_of_eq (hne : xs ≠ []) (h : k.pos + xs.length = k.target) :
    k.take xs = (k.load xs.toByteArray).write := by
  obtain ⟨ys, x, rfl⟩ : ∃ ys x, xs = ys ++ [x] := ⟨_, _, (List.dropLast_concat_getLast hne).symm⟩
  have hsize : ([x].toByteArray).size = 1 := by simp
  have hys : ys.toByteArray.size = ys.length := by simp
  rw [List.length_append, List.length_singleton] at h
  have hput : (k.load ys.toByteArray).put x = (k.load (ys ++ [x]).toByteArray).write := by
    rw [put, load_load, ← List.toByteArray_append, if_neg]
    rw [pos_load, List.toByteArray_append, size_append, hsize, hys]
    show ¬ k.pos + (ys.length + 1) < k.target
    omega
  rw [take_append, take_of_lt ys (by omega)]
  dsimp only [bind, Except.bind, take]
  rw [hput]
  rcases (k.load (ys ++ [x]).toByteArray).write with _ | ⟨k', out⟩
  · rfl
  simp [pure, Except.pure]

end Intake

/-! ### Following the input -/

def mostHeader : Nat := 18

theorem size_header_le (p : Plan) : p.header.size ≤ mostHeader := Frame.Description.size_write_le _

/-- A writer before its first piece, whose reader remembers `r`. -/
structure Writer.Begins (w : Writer) (r : Reps) : Prop where
  sound : w.Sound r w.finder.content.size
  stage : w.stage = .beforeHeader
  consumed : w.consumed = 0
  origin : w.origin = w.finder.content.size

theorem Writer.Begins.usable {w : Writer} (h : w.Begins r) : w.plan.tuning.Usable := by
  rw [h.sound.steady.tuning]
  exact h.sound.steady.usable

/-- The intake `k` of a frame that began with the writer `w` has taken `data` and given `out`. -/
structure Intake.Follows (k : Intake) (w : Writer) (r : Reps) (data out : ByteArray) : Prop where
  begins : w.Begins r
  plan : k.writer.plan = w.plan
  origin : k.writer.origin = w.origin
  content : k.writer.finder.content ++ k.pending = w.finder.content ++ data
  consumed : k.writer.consumed + k.pending.size = data.size
  stage : k.writer.stage = .beforeHeader ∧ k.writer.consumed = 0 ∨ k.writer.stage = .ongoing
  written : ∃ bytes r', out = (if k.writer.stage = .beforeHeader then .empty else w.plan.header) ++ bytes ∧
    Parts w.layout k.writer.finder.content false k.writer.finder.content.size w.origin w.coding r bytes k.writer.coding r' ∧
    k.writer.Sound r' k.writer.finder.content.size
  room : k.pos < k.target

namespace Intake

variable {k k' : Intake} {w : Writer} {r : Reps} {data out : ByteArray}

/-- The header that is still to be written, counted at its largest. -/
def headerDue (k : Intake) : Nat := if k.writer.stage = .beforeHeader then mostHeader else 0

/-- Sizes that a frame allows: none more than was promised. -/
def Allows (w : Writer) (n : Nat) : Prop := ∀ m, w.plan.pledged = some m → n ≤ m

theorem Follows.load (h : k.Follows w r data out) (b : ByteArray) (hroom : k.pos + b.size < k.target) :
    (k.load b).Follows w r (data ++ b) out where
  begins := h.begins
  plan := h.plan
  origin := h.origin
  content := by
    show k.writer.finder.content ++ (k.pending ++ b) = _
    rw [← append_assoc, h.content, append_assoc]
  consumed := by
    show k.writer.consumed + (k.pending ++ b).size = _
    grind [consumed]
  stage := h.stage
  written := h.written
  room := by rwa [pos_load]

theorem room_turned (k : Intake) (w : Writer) : (k.turned w).pos < (k.turned w).target := by
  grind [blockSize_pos, turned, pos, size_empty]

theorem room_of_write (h : k.write = .ok (k', out)) : k'.pos < k'.target ∧ k'.pending = .empty := by
  grind [Intake.write, room_turned, turned]

theorem flush_of_flush (h : k.flush = .ok (k', out)) : k'.flush = .ok (k', .empty) := by
  unfold Intake.flush at h
  have h0 : k'.pending.size = 0 := by
    split at h
    · cases h
      assumption
    · rw [(room_of_write h).2]
      rfl
  exact if_pos h0

theorem Follows.front (h : k.Follows w r data out)
    (hout : out = (if k.writer.stage = .beforeHeader then .empty else w.plan.header) ++ bytes)
    (hparts : Parts w.layout k.writer.finder.content false k.writer.finder.content.size w.origin w.coding r bytes c r') (x : ByteArray) :
    out ++ (k.writer.opening ++ x) = w.plan.header ++ (bytes ++ x) := by
  rw [hout, opening, h.plan]
  rcases h.stage with ⟨hb, h0⟩ | hb
  · -- before the header nothing has been written
    have hcs : k.writer.finder.content.size = w.origin := by
      have h1 := congrArg ByteArray.size h.content
      have h2 := h.consumed
      rw [size_append, size_append] at h1
      rw [h.begins.origin]
      omega
    rw [hcs] at hparts
    obtain ⟨rfl, -, -⟩ := hparts.self
    simp_all
  simp_all [append_assoc]

/-- A block that is written joins what has been written before. -/
theorem Follows.write (h : k.Follows w r data out) (b : ByteArray) (hne : (k.load b).pending.size ≠ 0)
    (ha : Allows w (data ++ b).size) :
    ∃ k' bytes, (k.load b).write = .ok (k', bytes) ∧ k'.Follows w r (data ++ b) (out ++ bytes) ∧ k'.pending = .empty ∧
      bytes.size + k'.headerDue ≤ k.headerDue + 4 * (k.pending.size + b.size) ∧ 0 < bytes.size := by
  obtain ⟨bytes, r', hout, hparts, hsound⟩ := h.written
  have hstage : k.writer.stage ≠ .created := by
    rcases h.stage with h | h
    · rw [h.1]; decide
    · rw [h]; decide
  obtain ⟨finder, longDistance, coding, reps, places, firstBlock, bytes', r'', hadd, hc, hparts', hsteady, htold⟩ :=
    add_steady (w := k.writer) (k.load b).start false hstage hne hsound.steady (.inl hsound.known)
  have hs : Writer.Sound _ r'' finder.content.size := ⟨hsteady, htold hsound.known⟩
  replace hadd := hadd k.writer.aside rfl
  rw [put_aside] at hadd
  have hconsumed : k.writer.consumed + (k.load b).pending.size = (data ++ b).size := by
    have := h.consumed
    show k.writer.consumed + (k.pending ++ b).size = _
    rw [size_append, size_append]
    omega
  have hanswer : answer k.writer.plan (k.writer.consumed + (k.load b).pending.size) (k.writer.opening ++ bytes') =
      .ok (k.writer.opening ++ bytes') := by
    unfold answer
    rw [h.plan, hconsumed]
    rcases hp : w.plan.pledged with _ | m
    · rfl
    · exact if_neg (not_lt.2 (ha m hp))
  have hopened : k.writer.opened = .ongoing := by
    unfold opened
    rcases h.stage with h | h
    · rw [if_pos h.1]
    · rw [h, if_neg (by decide)]
  have hlayout : k.writer.layout = w.layout := by
    unfold layout
    rw [h.plan, h.origin]
  have hlast := hparts'.size_le le_rfl
  have hpos := hparts'.size_pos (by rw [hc, size_append]; omega)
  rw [hlayout, hc] at hparts'
  generalize hw' : ({ k.writer with
      finder, longDistance, coding, reps, places, firstBlock
      stage := if false = true then .ending else k.writer.opened
      consumed := k.writer.consumed + (k.load b).pending.size
      produced := k.writer.produced + (k.writer.opening ++ bytes').size } : Writer) = w' at hadd
  have hfinder : w'.finder = finder := by rw [← hw']
  have hw'stage : w'.stage = .ongoing := by rw [← hw']; exact hopened
  have hwsound : w'.Sound r'' finder.content.size := by
    rw [← hw']
    exact ⟨hs.steady.congr rfl rfl rfl rfl rfl, hs.known⟩
  have hturned : ((k.load b).turned w').writer = w' ∧ ((k.load b).turned w').pending = .empty := by
    unfold turned
    dsimp only
    split <;> exact ⟨rfl, rfl⟩
  have hdue : ((k.load b).turned w').headerDue = 0 := by
    rw [headerDue, hturned.1, hw'stage, if_neg (by decide)]
  have hcontent : finder.content = w.finder.content ++ (data ++ b) := by
    rw [hc]
    show k.writer.finder.content ++ (k.pending ++ b) = _
    rw [← append_assoc, h.content, append_assoc]
  refine ⟨(k.load b).turned w', k.writer.opening ++ bytes', ?_, ?_, hturned.2, ?_, ?_⟩
  · rw [Intake.write, show (k.load b).writer = k.writer from rfl, hadd, hanswer]
  · refine ⟨h.begins, ?_, ?_, ?_, ?_, .inr (hturned.1.symm ▸ hw'stage), ⟨bytes ++ bytes', r'', ?_, ?_, ?_⟩, room_turned _ _⟩
    · grind [plan]
    · grind [origin]
    · simp_all
    · rw [hturned.1, hturned.2, ← hw']
      exact hconsumed
    · rw [hturned.1, hw'stage, if_neg (by decide), h.front hout hparts]
    · rw [hturned.1, hfinder, ← hw', hc]
      exact (hparts.extend le_rfl _).append hparts' (.inr rfl)
    simp_all
  · rw [hdue, size_append]
    have h1 : k.writer.opening.size ≤ k.headerDue := by
      unfold opening headerDue
      split
      · exact size_header_le _
      · exact le_rfl
    have h2 : finder.content.size - k.writer.finder.content.size = k.pending.size + b.size := by
      rw [hc, size_append]
      show k.writer.finder.content.size + (k.pending ++ b).size - _ = _
      rw [size_append]
      omega
    omega
  · rw [size_append]
    omega

theorem Follows.put (h : k.Follows w r data out) (b : UInt8) (ha : Allows w (data ++ [b].toByteArray).size) :
    ∃ k' bytes, k.put b = .ok (k', bytes) ∧ k'.Follows w r (data ++ [b].toByteArray) (out ++ bytes) ∧
      bytes.size + 4 * k'.pending.size + k'.headerDue ≤ k.headerDue + 4 * (k.pending.size + 1) := by
  have hsize : ([b].toByteArray).size = 1 := by simp
  unfold Intake.put
  dsimp only
  split
  · rename_i hroom
    refine ⟨k.load [b].toByteArray, .empty, rfl, ?_, ?_⟩
    · rw [append_empty]
      exact h.load _ (by rwa [pos_load] at hroom)
    · show 0 + 4 * (k.pending ++ [b].toByteArray).size + k.headerDue ≤ _
      rw [size_append, hsize]
      omega
  · have hne : (k.load [b].toByteArray).pending.size ≠ 0 := by
      show (k.pending ++ [b].toByteArray).size ≠ 0
      rw [size_append, hsize]
      omega
    obtain ⟨k', bytes, hw, hf, hp, hle, -⟩ := h.write [b].toByteArray hne ha
    simp_all

theorem Follows.take (xs : List UInt8) (h : k.Follows w r data out) (ha : Allows w (data.size + xs.length)) :
    ∃ k' bytes, k.take xs = .ok (k', bytes) ∧ k'.Follows w r (data ++ xs.toByteArray) (out ++ bytes) ∧
      bytes.size + 4 * k'.pending.size + k'.headerDue ≤ k.headerDue + 4 * (k.pending.size + xs.length) := by
  induction xs generalizing k data out with
  | nil =>
    refine ⟨k, .empty, rfl, ?_, ?_⟩
    · simp_all
    · show 0 + 4 * k.pending.size + k.headerDue ≤ k.headerDue + 4 * (k.pending.size + 0)
      omega
  | cons x xs ih =>
    have hsize : (data ++ [x].toByteArray).size = data.size + 1 := by
      simp
    have hlen : (x :: xs).length = xs.length + 1 := rfl
    obtain ⟨k₁, bytes₁, h1, hf₁, hle₁⟩ := h.put x fun m hm => by
      have := ha m hm
      omega
    obtain ⟨k₂, bytes₂, h2, hf₂, hle₂⟩ := ih hf₁ fun m hm => by
      have := ha m hm
      omega
    refine ⟨k₂, bytes₁ ++ bytes₂, ?_, ?_, ?_⟩
    · rw [Intake.take, h1]
      dsimp only [bind, Except.bind]
      rw [h2]
      rfl
    · rw [append_assoc, ← List.toByteArray_append, append_assoc] at hf₂
      exact hf₂
    · rw [size_append]
      omega

theorem Follows.flush (h : k.Follows w r data out) (ha : Allows w data.size) :
    ∃ k' bytes, k.flush = .ok (k', bytes) ∧ k'.Follows w r data (out ++ bytes) ∧ k'.pending.size = 0 ∧
      bytes.size + k'.headerDue ≤ k.headerDue + 4 * k.pending.size := by
  unfold Intake.flush
  split
  · simp_all
  · have hwrite := h.write .empty (by rwa [load_empty]) (by rwa [append_empty])
    grind [load_empty, append_empty]

/-- The whole of a frame that began with the writer `w`. Its last part is marked, or an empty block behind it. -/
def Whole (w : Writer) (r : Reps) (data frame : ByteArray) : Prop :=
  ∃ bytes c r', frame = w.plan.header ++ (bytes ++ closing w.plan (w.finder.content ++ data) w.origin) ∧
    (Parts w.layout (w.finder.content ++ data) true (w.finder.content ++ data).size w.origin w.coding r bytes c r' ∧ data.size ≠ 0 ∨
      ∃ parts, bytes = parts ++ emptyBlock ∧
        Parts w.layout (w.finder.content ++ data) false (w.finder.content ++ data).size w.origin w.coding r parts c r')

theorem Follows.finish (h : k.Follows w r data out) (ha : w.plan.pledged = none ∨ w.plan.pledged = some data.size) :
    ∃ bytes, k.finish = .ok bytes ∧ Whole w r data (out ++ bytes) ∧ bytes.size ≤ k.headerDue + 4 * k.pending.size + 7 := by
  obtain ⟨bytes, r', hout, hparts, hsound⟩ := h.written
  have hstage : k.writer.stage ≠ .created ∧ k.writer.stage ≠ .ending := by
    rcases h.stage with h | h
    · rw [h.1]; decide
    · rw [h]; decide
  have hlayout : k.writer.layout = w.layout := by
    unfold layout
    rw [h.plan, h.origin]
  have hanswer (x : ByteArray) : lastAnswer k.writer.plan (k.writer.consumed + k.pending.size) x = .ok x := by
    unfold lastAnswer
    rw [h.plan, h.consumed]
    rcases ha with hp | hp
    · rw [hp]
    · rw [hp]
      exact if_pos rfl
  have hclosing (b : ByteArray) : (closing k.writer.plan b k.writer.origin).size ≤ 4 := by
    unfold closing
    split
    · simp_all [size_putLe]
    · exact Nat.zero_le _
  have hopening : k.writer.opening.size ≤ k.headerDue := by
    unfold opening headerDue
    split
    · exact size_header_le _
    · exact le_rfl
  by_cases hempty : k.pending.size = 0
  · have hfin := finish_empty (w := k.writer) k.start hstage.1 hstage.2 hempty
    have hcontent : k.writer.finder.content = w.finder.content ++ data := by
      rw [← h.content, size_eq_zero_iff.1 hempty, append_empty]
    refine ⟨k.writer.opening ++ (emptyBlock ++ closing k.writer.plan k.writer.finder.content k.writer.origin), ?_, ?_, ?_⟩
    · simp_all [Intake.finish]
    · refine ⟨bytes ++ emptyBlock, k.writer.coding, r', ?_, .inr ⟨bytes, rfl, ?_⟩⟩
      · rw [h.front hout hparts, hcontent, h.plan, h.origin, append_assoc]
      · rwa [hcontent] at hparts
    · have he : emptyBlock.size = 3 := by
        rfl
      grind
  · obtain ⟨content, coding, bytes', r'', hfin, hc, hparts'⟩ :=
      finish_spec (w := k.writer) k.start hstage.1 hempty hsound
    replace hfin := hfin k.writer.aside rfl
    rw [put_aside] at hfin
    have hcontent : content = w.finder.content ++ data := by rw [hc, h.content]
    refine ⟨k.writer.opening ++ (bytes' ++ closing k.writer.plan content k.writer.origin), ?_, ?_, ?_⟩
    · rw [Intake.finish, hfin, hanswer]
    · refine ⟨bytes ++ bytes', coding, r'', ?_, .inl ⟨?_, ?_⟩⟩
      · rw [h.front hout hparts, hcontent, h.plan, h.origin, append_assoc]
      · have hext := hparts.extend le_rfl k.pending
        rw [← hc] at hext
        rw [hlayout] at hparts'
        rw [← hcontent]
        refine hext.append hparts' (.inl ?_)
        rw [hc, size_append]
        omega
      · have := h.consumed
        omega
    · have h2 := hparts'.size_le le_rfl
      grind

end Intake

end ZstCodec.Compress
