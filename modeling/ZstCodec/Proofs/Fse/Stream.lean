import ZstCodec.Proofs.Fse.Distribution

/-! # Streams of symbols

Symbols coded with two alternating states are read back. The reader notices the end by overrunning the stream: the state
of the last symbol but one starts a symbol that does not own all states, and so asks for bits that are not there. -/

namespace ZstCodec.Fse

variable {e : Encoder} {t : Decoder} {symbols : Array Nat} {limit : Nat}

variable {out : Array Nat} {w : BitWriter} {d : Distribution} {i one two : Nat}

/-- From symbol `i` on the states and the bits written so far determine the symbols. -/
structure Resumes (e : Encoder) (t : Decoder) (limit : Nat) (symbols : Array Nat) (i : Nat) (w : BitWriter) (one two : Nat) : Prop where
  sound : w.Sound
  one_mem : one ∈ e.states
  two_mem : two ∈ e.states
  decode : ∀ (c : BitCursor) (out : Array Nat) (fuel : Nat), c.Over w → out.toList = symbols.toList.take i → symbols.size ≤ i + fuel →
    decodeAlternating t limit c (two % 2 ^ e.log) (one % 2 ^ e.log) out fuel = .ok symbols

theorem take_push (hi : i < symbols.size) (h : out.toList = symbols.toList.take i) :
    (out.push (symbols.getD i 0)).toList = symbols.toList.take (i + 1) := by
  simp_all [List.take_add_one]

theorem size_of_take (hi : i ≤ symbols.size) (h : out.toList = symbols.toList.take i) : out.size = i := by
  grind [List.length_take]

theorem Resumes.prior (h : Resumes e t limit symbols (i + 1) w one two)
    (hm : Matches e t (symbols.getD i 0)) (hi : i + 1 < symbols.size) (hlimit : symbols.size ≤ limit) :
    ∃ w' one', e.encode w one (symbols.getD i 0) = (w', one') ∧ Resumes e t limit symbols i w' two one' := by
  obtain ⟨w', y, he, hs, hy, hsym, hnext⟩ := hm.next h.one_mem h.sound
  refine ⟨w', y, he, hs, h.two_mem, hy, fun c out fuel hc hout hfuel => ?_⟩
  obtain ⟨c', hstep, hc'⟩ := hnext c hc
  have hsize := size_of_take (by omega) hout
  rcases fuel with _ | fuel
  · omega
  · rw [decodeAlternating, if_neg (by omega), hstep]
    dsimp only
    have hin : c'.overrun = false := by
      rw [BitCursor.overrun, hc'.pos]
      exact decide_eq_false (by omega)
    rw [hin, hsym]
    exact h.decode c' _ fuel hc' (take_push (by omega) hout) (by omega)

theorem Resumes.encodeAlternating (h : Resumes e t limit symbols i w one two)
    (hm : ∀ s ∈ symbols, Matches e t s) (hi : i < symbols.size) (hlimit : symbols.size ≤ limit) :
    ∃ w' one' two', Fse.encodeAlternating e symbols w one two i = (w', one', two') ∧ Resumes e t limit symbols 0 w' one' two' := by
  induction i generalizing w one two with
  | zero => exact ⟨w, one, two, rfl, h⟩
  | succ i ih =>
    have hmem : symbols.getD i 0 ∈ symbols := by
      rw [show symbols.getD i 0 = symbols[i] by simp [Array.getD_eq_getD_getElem?, show i < symbols.size by omega]]
      exact Array.getElem_mem _
    obtain ⟨w', one', he, h'⟩ := h.prior (hm _ hmem) hi hlimit
    grind [encodeAlternating.eq_2]

theorem resumes_end (hn : symbols.size = n + 2) (hlimit : symbols.size ≤ limit) (hm : ∀ s ∈ symbols, Matches e t s)
    (hbits : 0 < t.bits.getD (e.init (symbols.getD n 0) % 2 ^ e.log) 0) :
    Resumes e t limit symbols n {} (e.init (symbols.getD (n + 1) 0)) (e.init (symbols.getD n 0)) := by
  have hmem : ∀ i < symbols.size, symbols.getD i 0 ∈ symbols := fun i hi => by
    simp_all
  obtain ⟨h1, h2⟩ := (hm _ (hmem n (by omega))).init
  obtain ⟨h3, h4⟩ := (hm _ (hmem (n + 1) (by omega))).init
  refine ⟨BitWriter.sound_empty, h3, h1, fun c out fuel hc hout hfuel => ?_⟩
  have hsize := size_of_take (by omega) hout
  rcases fuel with _ | fuel
  · omega
  · rw [decodeAlternating, if_neg (by omega), Decoder.next]
    dsimp only
    have hout' : (c.skip (t.bits.getD (e.init (symbols.getD n 0) % 2 ^ e.log) 0)).overrun = true := by
      have hpos := hc.pos
      rw [BitWriter.length_empty] at hpos
      rw [BitCursor.overrun, BitCursor.skip, hpos]
      exact decide_eq_true (by dsimp only; omega)
    grind [Array.ext', take_push, Array.length_toList, List.take_length]

theorem decompress_of_read
    (hread : Distribution.read b 255 = .ok (d, used)) (hlog : d.log ≤ 6) (hsize : d.counts.size ≤ 12)
    (hstart : BitCursor.start (slice b used b.size) = .ok c) (hone : d.decoder.init c = (one, c'))
    (htwo : d.decoder.init c' = (two, c'')) (limit : Nat) :
    decompress b limit 6 = decodeAlternating d.decoder limit c'' one two #[] (limit + 1) := by
  have hroom : 1 + d.size + 1 + (2 * (d.maxSymbol + 1) + d.size + 8 + 3) / 4 + 128 + 1 ≤ 219 := by
    have h64 : d.size ≤ 2 ^ 6 := Nat.pow_le_pow_right (by omega) hlog
    unfold Distribution.maxSymbol
    omega
  unfold decompress
  rw [hread]
  simp only [bind, Except.bind]
  rw [if_neg (by omega), if_neg (by omega), hstart]
  simp_all

/-- A list of symbols is read back, if none of them owns all states. -/
theorem decompress_encodeAll (h : d.Valid) (hlast : d.count (d.counts.size - 1) ≠ 0)
    (hsize : d.counts.size ≤ 12) (hlog : d.log ≤ 6) (hshare : ∀ s ∈ symbols, 0 < d.share s ∧ d.share s < 2 ^ d.log)
    (hn : symbols.size ≤ 255) (hw : d.write = some head) (he : encodeAll d.encoder symbols = some body) :
    decompress (head ++ body) 255 6 = .ok symbols := by
  have hm : ∀ s ∈ symbols, Matches d.encoder d.decoder s := fun s hs => h.matches_encoder (hshare s hs).1
  unfold encodeAll at he
  dsimp only at he
  split at he
  case isTrue => exact nomatch he
  obtain ⟨n, hsyms⟩ : ∃ n, symbols.size = n + 2 := ⟨symbols.size - 2, by omega⟩
  have hmem : ∀ i < symbols.size, symbols.getD i 0 ∈ symbols := fun i hi => by
    simp_all
  have hbits := Distribution.bits_init_pos h (hshare _ (hmem n (by omega))).1 (hshare _ (hmem n (by omega))).2
  have hend := resumes_end hsyms hn hm hbits
  obtain ⟨w, odd, even, hcode, hres⟩ := hend.encodeAlternating hm (by omega) hn
  rw [hsyms, show n + 2 - 1 = n + 1 by omega, Nat.add_sub_cancel, hcode] at he
  obtain rfl : _ = body := Option.some.inj he
  obtain ⟨h1, h2⟩ := (hm _ (hmem n (by omega))).start odd hres.sound
  obtain ⟨h3, h4⟩ := (hm _ (hmem n (by omega))).start even h1
  obtain ⟨c, hstart, hc⟩ := BitCursor.start_close h3
  obtain ⟨c', hinit, hc'⟩ := h4 c hc
  obtain ⟨c'', hinit', hc''⟩ := h2 c' hc'
  have hmax : d.counts.size ≤ 255 + 1 := by omega
  have hread := Distribution.read_write h hlast hmax hw (d.encoder.finish (d.encoder.finish w odd) even).close
  have hrest := slice_append_right head (d.encoder.finish (d.encoder.finish w odd) even).close
  rw [← hrest] at hstart
  rw [decompress_of_read hread hlog hsize hstart hinit hinit' 255]
  refine hres.decode c'' #[] (255 + 1) hc'' ?_ ?_
  · simp
  · omega

end ZstCodec.Fse
