import ZstCodec.Proofs.Compress.Aside

/-! # What a frame writer gives

A writer is *steady* at a place if its finder rests there and it knows what its reader remembers. Writing a block takes
a steady writer to a steady one, and gives parts that join to the input. A writer that does not know its reader's
offsets yet has to stay in one segment; one that does is *sound*. -/

namespace ZstCodec.Match

theorem Runs.widen (h : Runs b low window p seqs q)
    (hq : q ≤ window') : Runs b low window' p seqs q := by
  induction h with
  | nil => exact .nil _
  | cons hf hrest ih =>
    have h1 := le_trans hrest.le hq
    have h2 := hf.within.low_le
    exact .cons { hf with within := { hf.within with le_window := by omega } } (ih hq)

namespace Finder

variable {f : Finder} {i j : Nat}

theorem catchUp_eq (f : Finder) (i : Nat) : f.catchUp i = { f with next := (f.catchUp i).next } ∧ f.next ≤ (f.catchUp i).next := by
  unfold catchUp
  split
  · exact ⟨rfl, by dsimp only; omega⟩
  · exact ⟨rfl, le_rfl⟩

end Finder

end ZstCodec.Match

namespace ZstCodec.Compress.Writer

open Match

variable {w : Writer} {r : Reps} {i j : Nat}

variable {piece : ByteArray} {place : Int}

/-- The writer can go on from `i`, where its reader remembers `r`, or where the content is one segment. -/
structure Steady (w : Writer) (r : Reps) (i : Nat) : Prop where
  rests : w.finder.Rests w.origin i
  tuning : w.plan.tuning = w.finder.tuning
  usable : w.finder.tuning.Usable
  knows : Knows w.finder.tuning.strategy.isOptimal r w.reps
  settled : Reps.Settled r
  single : Reps.Told r ∨ w.finder.Alone
  within : w.finder.attached.isSome → Reps.All (Within firstPosition w.finder.content.size i) r
  long : ∀ {l}, w.longDistance = some l → l.Sorted i ∧ l.windowLog = w.finder.tuning.windowLog

theorem Steady.congr {w' : Writer} (h : w.Steady r i) (hplan : w'.plan = w.plan) (hfinder : w'.finder = w.finder)
    (hlong : w'.longDistance = w.longDistance) (hreps : w'.reps = w.reps) (horigin : w'.origin = w.origin) : w'.Steady r i := by
  obtain ⟨h1, h2, h3, h4, h5, h6, h7, h8⟩ := h
  rw [← hfinder] at h1 h2 h3 h4 h6 h7 h8
  rw [← horigin] at h1
  rw [← hplan] at h2
  rw [← hreps] at h4
  rw [← hlong] at h8
  exact ⟨h1, h2, h3, h4, h5, h6, h7, h8⟩

theorem Steady.limit (h : w.Steady r i) (hij : i ≤ j) (hj : j ≤ w.finder.content.size) :
    ({ w with finder := limitWindow w.finder i j } : Writer).Steady r i ∧ (limitWindow w.finder i j).Placed i j ∧
      (limitWindow w.finder i j).Limited w.origin j ∧ (limitWindow w.finder i j).content = w.finder.content := by
  obtain ⟨low, start, next, dictEnd, attached, hg, hp, hr, hl, ha⟩ := limitWindow_spec h.rests hij hj
  have htold := h.single.imp_right (limitWindow_alone · i j)
  rw [hg] at hp hr hl htold ⊢
  refine ⟨⟨hr, h.tuning, h.usable, h.knows, h.settled, htold, fun hs => h.within ?_, h.long⟩, hp, hl, rfl⟩
  grind

theorem findLong_spec (h : w.Steady r i) (hp : w.finder.Placed i j) :
    ∃ longDistance ahead, w.findLong i j = ({ w with longDistance }, ahead) ∧ w.finder.Foreseen i j ahead ∧
      ∀ {l}, longDistance = some l → l.Sorted j ∧ l.windowLog = w.finder.tuning.windowLog := by
  unfold findLong
  rcases hlong : w.longDistance with _ | l
  · exact ⟨w.longDistance, none, rfl, nofun, by rw [hlong]; nofun⟩
  obtain ⟨hs, hw⟩ := h.long hlong
  dsimp only
  split
  · refine ⟨some l, some {}, rfl, ?_, ?_⟩
    · rintro a ⟨⟩
      exact ⟨rfl, rfl, i, hp.le, .nil _⟩
    · rintro l' ⟨⟩
      exact ⟨hs.mono hp.le, hw⟩
  · obtain ⟨-, h2, -, h4, q, hq, hruns, h5, h6⟩ := LongDistance.find_spec (b := w.finder.content) hs hp.le
    generalize l.find w.finder.content i j = p at h2 h4 hruns h5 h6 ⊢
    obtain ⟨l', ahead⟩ := p
    refine ⟨some l', some ahead, rfl, ?_, ?_⟩
    · rintro a ⟨⟩
      refine ⟨h5, h6, q, hq, ?_⟩
      unfold Finder.span
      split
      · rwa [← hw]
      · exact hruns.widen (le_trans hq hp.le_size)
    simp_all

theorem Steady.told (h : w.Steady r i) : w.finder.Told i r w.reps where
  same := h.knows.same
  settled := h.settled
  told ho := h.single.resolve_right fun ha => ho ha.older
  within ha := by
    have hw := h.within ha
    rw [Finder.bottom_of_attached h.rests.ready ha, Finder.span, if_neg (h.rests.attached ha).1]
    exact hw

/-- Cutting a block into sequences explains it. -/
theorem parseBlock_spec (h : w.Steady r i) (hp : w.finder.Placed i j) :
    ∃ tables prices next longDistance reps seqs rest r',
      w.parseBlock i j = ({ w with finder := { w.finder with tables, prices, next }, longDistance }, reps, ⟨i, seqs, rest⟩) ∧
      ({ w.finder with tables, prices, next } : Finder).Kept j ∧
      (∀ {l}, longDistance = some l → l.Sorted j ∧ l.windowLog = w.finder.tuning.windowLog) ∧ rest ≤ j ∧
      Explains w.finder.content firstPosition w.finder.span r i seqs.toList (j - rest) r' ∧
      Knows w.finder.tuning.strategy.isOptimal r' reps ∧ Plainly w.finder.tuning.strategy.isOptimal seqs.toList := by
  obtain ⟨longDistance, ahead, hfind, hahead, hlong⟩ := findLong_spec h hp
  obtain ⟨hcatch, hnext⟩ := w.finder.catchUp_eq i
  generalize (w.finder.catchUp i).next = next at hcatch hnext
  have hready : ({ w.finder with next } : Finder).Ready i :=
    h.rests.ready.update (h.rests.ready.kept.skip hnext)
  have hparse := Finder.parse_explained (f := { w.finder with next }) hp.update hready
    (h.told.update w.finder.tables next) h.knows.all hahead
  unfold parseBlock
  rw [hfind]
  dsimp only at hparse ⊢
  rw [hcatch]
  generalize Finder.parse { w.finder with next } ahead w.reps i j = p at hparse ⊢
  obtain ⟨finder, reps, seqs, rest⟩ := p
  obtain ⟨⟨tables, prices, next', hf⟩, hkept, hrest, r', he, hs, hall, hsimple⟩ := hparse
  subst hf
  exact ⟨tables, prices, next', longDistance, reps, seqs, rest, r', rfl, hkept, hlong, hrest, he, ⟨hs, hall⟩,
    fun ho s hs => hsimple ho s (by simpa using hs)⟩

theorem Steady.next {next : Nat} {longDistance : Option LongDistance} {coding : Block.Coding}
    (firstBlock : Bool) (h : w.Steady r i) (hij : i ≤ j) (hj : j ≤ w.finder.content.size)
    (hkept : ({ w.finder with tables, prices, next } : Finder).Kept j)
    (hlong : ∀ {l}, longDistance = some l → l.Sorted j ∧ l.windowLog = w.finder.tuning.windowLog)
    (hk : Knows w.finder.tuning.strategy.isOptimal r₁ reps₁) (hc : Carries w.finder.span i j r r₁) :
    ({ w with
      finder := { w.finder with tables, prices, next }
      longDistance
      coding
      reps := reps₁
      firstBlock } : Writer).Steady r₁ j where
  rests := by
    obtain ⟨h1, h2, h3, h4, h5, h6, h7, h8⟩ := h.rests
    refine ⟨h1, h2, le_trans h3 hij, hj, le_trans h5 hij, h6, h7, ⟨hkept, h8.ring, fun hd => ?_⟩⟩
    have hb := h8.beside hd
    exact ⟨hb.low, hb.tagged, hb.plain, hb.tree⟩
  tuning := h.tuning
  usable := h.usable
  knows := hk
  settled := hc.settled h.settled
  single := h.single.imp hc.told fun ha => ⟨ha.low_eq, ha.attached⟩
  within ha := by
    refine hc.reach ⟨Within.mono, fun hw => hw.weaken le_rfl ?_⟩ (h.within ha)
    rw [Finder.span, if_neg (h.rests.attached ha).1]
  long := hlong

theorem allows_of_limited (h : w.Steady r i) (hl : w.finder.Limited w.origin j) : w.layout.Allows j w.finder.span := by
  unfold Layout.Allows layout
  rw [h.tuning]
  rcases hl with hl | hl
  · simp_all [Finder.span.eq_1]
  · exact .inr hl

theorem writeBlock_spec (last : Bool) (out : ByteArray) (h : w.Steady r i) (hp : w.finder.Placed i j)
    (hl : w.finder.Limited w.origin j) (hij : i < j) (hb : j ≤ i + w.plan.blockSize) :
    ∃ finder longDistance coding reps bytes r',
      w.writeBlock i j last out = ({ w with finder, longDistance, coding, reps, firstBlock := false }, out ++ bytes) ∧
      finder.content = w.finder.content ∧ Parts w.layout w.finder.content last j i w.coding r bytes coding r' ∧
      ({ w with finder, longDistance, coding, reps, firstBlock := false } : Writer).Steady r' j ∧ (Reps.Told r → Reps.Told r') := by
  have hw := allows_of_limited h hl
  unfold writeBlock
  by_cases hshort : j - i < leastSearched
  · rw [if_pos hshort]
    refine ⟨w.finder, w.longDistance, w.coding.later, w.reps, _, r, by rw [store_eq _ _ _ (le_of_lt hij)], rfl,
      .single hij hb hw .stored, ?_, id⟩
    exact h.next false (le_of_lt hij) hp.le_size (h.rests.ready.kept.mono (le_of_lt hij))
      (fun hl => ⟨(h.long hl).1.mono (le_of_lt hij), (h.long hl).2⟩) h.knows (.refl _ (le_of_lt hij) r)
  · obtain ⟨tables, prices, next, longDistance, reps, seqs, rest, r', hparse, hkept, hlong, hrest, he, hk, hplain⟩ :=
      parseBlock_spec h hp
    rw [if_neg hshort, hparse]
    dsimp only
    generalize hends : (if w.plan.splits = true then
      Block.cuts w.plan.policy w.coding (Block.Cut.literals ⟨i, seqs, rest⟩ w.finder.content) seqs else #[]) = ends
    have hcuts : ends.toList.Pairwise (· < ·) ∧ ∀ x ∈ ends.toList, 0 < x ∧ x < seqs.size := by
      rw [← hends]
      split
      · exact cuts_spec _ _ _ _
      · exact ⟨.nil, by simp⟩
    by_cases hempty : ends.isEmpty = true
    · rw [if_pos hempty]
      obtain ⟨bytes, c, r₁, reps₁, hout, hpart, hk₁, hc⟩ :=
        writeCut_spec { w with finder := { w.finder with tables, prices, next }, longDistance } seqs reps last out
          (le_of_lt hij) hrest he h.knows hk
      rw [hout]
      exact ⟨_, _, _, _, bytes, r₁, rfl, rfl, .single hij hb hw hpart,
        h.next false (le_of_lt hij) hp.le_size hkept hlong hk₁ hc, hc.told⟩
    · rw [if_neg hempty]
      have hsize : 0 < seqs.size := by
        rcases hends' : ends.toList with _ | ⟨x, xs⟩
        · simp_all
        · have := hcuts.2 x (by simp [hends'])
          omega
      obtain ⟨bytes, c, r₁, reps₁, hout, hparts, hk₁, hc⟩ :=
        writeParts_spec ⟨i, seqs, rest⟩ last hrest hplain ends.toList
          { w with finder := { w.finder with tables, prices, next }, longDistance } i 0 w.reps r r out hsize hcuts.1 hcuts.2
          (by simpa using he) h.knows h.knows hb hw
      rw [hout]
      exact ⟨_, _, _, _, bytes, r₁, rfl, rfl, hparts, h.next false (le_of_lt hij) hp.le_size hkept hlong hk₁ hc,
        hc.told⟩

theorem blockSize_pos (p : Plan) : 0 < p.blockSize := by
  unfold Plan.blockSize Plan.windowSize
  have hmax : Block.maxSize = 131072 := rfl
  grind

theorem writeBlocks_spec (lastPiece : Bool) (fuel : Nat) :
    ∀ (w : Writer) (r : Reps) (i : Nat) (out : ByteArray), w.Steady r i → w.finder.content.size ≤ i + fuel →
      ∃ finder longDistance coding reps firstBlock bytes r',
        w.writeBlocks lastPiece out i fuel = ({ w with finder, longDistance, coding, reps, firstBlock }, out ++ bytes) ∧
        finder.content = w.finder.content ∧
        Parts w.layout w.finder.content lastPiece w.finder.content.size i w.coding r bytes coding r' ∧
        ({ w with finder, longDistance, coding, reps, firstBlock } : Writer).Steady r' w.finder.content.size ∧
        (Reps.Told r → Reps.Told r') := by
  induction fuel with
  | zero =>
    intro w r i out h hf
    obtain rfl : i = w.finder.content.size := le_antisymm h.rests.le_size hf
    exact ⟨w.finder, w.longDistance, w.coding, w.reps, w.firstBlock, .empty, r,
      by rw [writeBlocks, append_empty], rfl, .nil _ _, h, id⟩
  | succ fuel ih =>
    intro w r i out h hf
    have hblock := blockSize_pos w.plan
    rw [writeBlocks]
    dsimp only
    by_cases hdone : w.finder.content.size ≤ i
    · obtain rfl : i = w.finder.content.size := le_antisymm h.rests.le_size hdone
      exact ⟨w.finder, w.longDistance, w.coding, w.reps, w.firstBlock, .empty, r,
        by rw [if_pos hdone, append_empty], rfl, .nil _ _, h, id⟩
    rw [if_neg hdone]
    generalize hj : min w.finder.content.size (i + w.plan.blockSize) = j
    obtain ⟨hs, hp, hl, hcontent⟩ := h.limit (show i ≤ j by omega) (by omega)
    obtain ⟨finder, longDistance, coding, reps, bytes, r', hout, hc, hparts, hs', ht⟩ :=
      writeBlock_spec (lastPiece && decide (j = w.finder.content.size)) out hs hp hl (show i < j by omega)
        (by dsimp only; omega)
    rw [hout]
    rw [hcontent] at hc hparts
    obtain ⟨finder', longDistance', coding', reps', firstBlock, bytes', r'', hout', hc', hparts', hs'', ht'⟩ :=
      ih { w with finder, longDistance, coding, reps, firstBlock := false } r' j (out ++ bytes) hs' (by rw [hc]; omega)
    rw [hc] at hc' hparts' hs''
    rw [hout', append_assoc]
    refine ⟨finder', longDistance', coding', reps', firstBlock, bytes ++ bytes', r'', rfl, hc', ?_, hs'', ht' ∘ ht⟩
    rcases lt_or_ge j w.finder.content.size with hlt | hge
    · rw [show decide (j = w.finder.content.size) = false by simp; omega, Bool.and_false] at hparts
      exact hparts.append hparts' (.inl hlt)
    · obtain rfl : j = w.finder.content.size := by omega
      obtain ⟨rfl, rfl, rfl⟩ := hparts'.self
      rw [append_empty]
      simp only [decide_true, Bool.and_true] at hparts
      exact hparts

/-! ### Pieces -/

def opening (w : Writer) : ByteArray := if w.stage = .beforeHeader then w.plan.header else .empty

def opened (w : Writer) : Stage := if w.stage = .beforeHeader then .ongoing else w.stage

def answer (p : Plan) (consumed : Nat) (out : ByteArray) : Except Fault ByteArray :=
  match p.pledged with
  | some n => if n < consumed then .error .sourceSizeWrong else .ok out
  | none => .ok out

theorem open_eq (w : Writer) : (if w.stage = .beforeHeader then { w with stage := .ongoing } else w) = { w with stage := w.opened } := by
  unfold opened
  split <;> rfl

theorem add_empty (place : Int) (last : Bool) (hs : w.stage ≠ .created) (he : piece.size = 0) :
    w.add place piece last = ({ w with stage := w.opened }, .ok w.opening) := by
  simp_all [add, open_eq, opening]

/-- A piece that is not empty is put behind the content and written block by block. -/
theorem add_eq (place : Int) (last : Bool) (hs : w.stage ≠ .created) (hne : piece.size ≠ 0) :
    w.add place piece last =
      let e := { w with stage := w.opened }.extend place piece
      let r := e.writeBlocks last w.opening (e.finder.content.size - piece.size) piece.size
      ({ r.1 with
          stage := if last && w.opening.size < r.2.size then .ending else r.1.stage
          consumed := r.1.consumed + piece.size
          produced := r.1.produced + r.2.size },
        answer r.1.plan (r.1.consumed + piece.size) r.2) := by
  unfold add
  rw [if_neg hs, open_eq]
  rw [if_neg hne, ← opening]
  grind [answer]

theorem Steady.extend (piece : ByteArray) (h : w.Steady r w.finder.content.size)
    (hplace : Reps.Told r ∨ place = w.places.next) :
    ∃ finder longDistance places, w.extend place piece = { w with finder, longDistance, places } ∧
      finder.content = w.finder.content ++ piece ∧
      ({ w with finder, longDistance, places } : Writer).Steady r w.finder.content.size := by
  obtain ⟨low, start, next, longDistance, places, he, hrests, hlong⟩ := extend_spec place piece h.rests fun hl => (h.long hl).1
  have htold : Reps.Told r ∨ (w.extend place piece).finder.Alone := by
    rcases h.single with ht | ha
    · exact .inl ht
    · rcases hplace with ht | rfl
      · exact .inl ht
      · exact .inr (extend_alone piece ha)
  rw [he] at hrests htold
  refine ⟨_, longDistance, places, he, rfl, hrests, h.tuning, h.usable, h.knows, h.settled, htold, fun ha => ?_, fun hl => ?_⟩
  · obtain ⟨h1, h2, h3⟩ := h.within ha
    have hle : w.finder.content.size ≤ (w.finder.content ++ piece).size := by
      rw [size_append]
      omega
    exact ⟨h1.weaken le_rfl hle, h2.weaken le_rfl hle, h3.weaken le_rfl hle⟩
  · obtain ⟨l', hl', hw, hs⟩ := hlong hl
    exact ⟨hs, hw.trans (h.long hl').2⟩

/-- A piece becomes parts, which are the same whatever the header says. -/
theorem add_steady (place : Int) (last : Bool) (hs : w.stage ≠ .created) (hne : piece.size ≠ 0)
    (h : w.Steady r w.finder.content.size) (hplace : Reps.Told r ∨ place = w.places.next) :
    ∃ finder longDistance coding reps places firstBlock bytes r',
      (∀ a, a.places = w.places → (w.put a).add place piece last =
        ({ w.put a with
            finder, longDistance, coding, reps, places, firstBlock
            stage := if last then .ending else w.opened
            consumed := w.consumed + piece.size
            produced := w.produced + ((w.put a).opening ++ bytes).size },
          answer w.plan (w.consumed + piece.size) ((w.put a).opening ++ bytes))) ∧
      finder.content = w.finder.content ++ piece ∧
      Parts w.layout finder.content last finder.content.size w.finder.content.size w.coding r bytes coding r' ∧
      ({ w with finder, longDistance, coding, reps, places, firstBlock } : Writer).Steady r' finder.content.size ∧
      (Reps.Told r → Reps.Told r') := by
  obtain ⟨finder, longDistance, places, hext, hc, hsteady⟩ := Steady.extend (w := { w with stage := w.opened }) piece
    (h.congr rfl rfl rfl rfl rfl) hplace
  dsimp only at hext hc
  have hstart : finder.content.size - piece.size = w.finder.content.size := by
    rw [hc, size_append]
    omega
  obtain ⟨finder', longDistance', coding, reps, firstBlock, bytes, r', hout, hc', hparts, hs', ht⟩ :=
    writeBlocks_spec last piece.size { w with stage := w.opened, finder, longDistance, places } r w.finder.content.size .empty
      hsteady (by dsimp only; omega)
  have hpos : 0 < bytes.size := hparts.size_pos (by rw [hc, size_append]; omega)
  refine ⟨finder', longDistance', coding, reps, places, firstBlock, bytes, r', fun a ha => ?_, hc'.trans hc, ?_, ?_, ht⟩
  · have hlt : decide ((w.put a).opening.size < ((w.put a).opening ++ bytes).size) = true := by
      simpa using hpos
    have hext' : ({ w.put a with stage := w.opened } : Writer).extend place piece = _ :=
      (extend_put (w := { w with stage := w.opened }) a ha place piece).trans (congrArg (put · _) hext)
    rw [add_eq (w := w.put a) place last hs hne, show (w.put a).opened = w.opened from rfl, hext']
    dsimp only
    rw [put_finder, hstart, writeBlocks_put, hout, empty_append]
    rw [hlt, Bool.and_true, hext]
    rfl
  · rw [hc']
    exact hparts
  · rw [hc']
    exact hs'.congr rfl rfl rfl rfl rfl

/-- A steady writer that knows what its reader remembers may be given pieces at any place. -/
structure Sound (w : Writer) (r : Reps) (i : Nat) : Prop where
  steady : w.Steady r i
  known : Reps.Told r

theorem Sound.of_pos (hrests : w.finder.Rests w.origin i) (htuning : w.plan.tuning = w.finder.tuning) (husable : w.finder.tuning.Usable)
    (hknows : Knows w.finder.tuning.strategy.isOptimal r w.reps) (hpos : Reps.All (0 < ·) r)
    (hwithin : w.finder.attached.isSome → Reps.All (Within firstPosition w.finder.content.size i) r)
    (hlong : ∀ {l}, w.longDistance = some l → l.Sorted i ∧ l.windowLog = w.finder.tuning.windowLog) : w.Sound r i := by
  obtain ⟨h1, h2, -⟩ := hpos
  have hsettled : Reps.Settled r := ⟨fun h0 => absurd h0 (ne_of_gt h1), fun h0 => absurd h0 (ne_of_gt h2)⟩
  exact ⟨⟨hrests, htuning, husable, hknows, hsettled, .inl ⟨h1, h2⟩, hwithin, hlong⟩, h1, h2⟩

/-! ### The end of a frame -/

/-- The checksum of the content from `i` on, if the frame has one. -/
def closing (p : Plan) (b : ByteArray) (i : Nat) : ByteArray :=
  if p.checksum then putLe .empty ((XxHash64.range b i b.size).toNat % 2 ^ 32) 4 else .empty

def emptyBlock : ByteArray := Block.Header.write .empty { last := true, kind := .stored, size := 0 }

def lastAnswer (p : Plan) (consumed : Nat) (out : ByteArray) : Except Fault ByteArray :=
  match p.pledged with
  | some n => if n = consumed then .ok out else .error .sourceSizeWrong
  | none => .ok out

theorem ending_eq (w : Writer) (b : ByteArray) (i : Nat) (out : ByteArray) :
    w.ending b i out = out ++ ((if w.stage = .ending then .empty else emptyBlock) ++ closing w.plan b i) := by
  unfold ending closing emptyBlock
  rw [header_eq_append]
  by_cases hs : w.stage = .ending
  · grind [putLe_eq_append, append_empty]
  · grind [putLe_eq_append, append_assoc, append_empty]

/-- A frame that ends without further input gets an empty last block. -/
theorem finish_empty (place : Int) (hs : w.stage ≠ .created) (he : w.stage ≠ .ending) (h0 : piece.size = 0) :
    (w.finish place piece).2 =
      lastAnswer w.plan w.consumed (w.opening ++ (emptyBlock ++ closing w.plan w.finder.content w.origin)) := by
  have hopened : w.opened ≠ .ending := by
    unfold opened
    split
    · decide
    · exact he
  unfold finish
  rw [add_empty place true hs h0]
  dsimp only
  rw [ending_eq]
  grind [lastAnswer]

/-- The last piece becomes the last parts of the frame, whatever its header says. -/
theorem finish_spec (place : Int) (hs : w.stage ≠ .created) (hne : piece.size ≠ 0)
    (h : w.Sound r w.finder.content.size) :
    ∃ content coding bytes r',
      (∀ a, a.places = w.places → ((w.put a).finish place piece).2 =
        lastAnswer w.plan (w.consumed + piece.size) ((w.put a).opening ++ (bytes ++ closing (w.put a).plan content w.origin))) ∧
      content = w.finder.content ++ piece ∧
      Parts w.layout content true content.size w.finder.content.size w.coding r bytes coding r' := by
  obtain ⟨finder, longDistance, coding, reps, places, firstBlock, bytes, r', hadd, hc, hparts, -⟩ :=
    add_steady place true hs hne h.steady (.inl h.known)
  refine ⟨finder.content, coding, bytes, r', fun a ha => ?_, hc, hparts⟩
  have hpledged : (w.put a).plan.pledged = w.plan.pledged := rfl
  unfold finish
  rw [hadd a ha]
  unfold answer lastAnswer
  rcases hp : w.plan.pledged with _ | n <;> rw [hp] at hpledged
  · dsimp only
    rw [ending_eq, hpledged]
    rw [if_pos rfl, if_pos rfl, empty_append, append_assoc]
    rfl
  · dsimp only
    by_cases hlt : n < w.consumed + piece.size
    · grind
    · rw [if_neg hlt]
      dsimp only
      rw [ending_eq, hpledged]
      dsimp only
      rw [if_pos rfl, if_pos rfl, empty_append, append_assoc]
      split <;> rfl

end ZstCodec.Compress.Writer
