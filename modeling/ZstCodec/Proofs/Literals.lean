import ZstCodec.Proofs.Huffman.Choice
import ZstCodec.Literals.Encode
import ZstCodec.Literals.Decode

/-! # The literals section

However literals are written, they are read back, and both sides share a Huffman code afterwards if the writer believes
so (`read_write`). -/

namespace ZstCodec.Literals

open Huffman

open Huffman (WeightTable Coverable Outcome)

variable {single : Bool} {bytes text : ByteArray} {reading : Huffman.Reading} {t u : WeightTable}

/-! ### Shared codes -/

/-- The writer's code is that of the reader's table, if the writer may use it again. -/
def Code.Shared (c : Code) (table : Option Huffman.Decoder) : Prop :=
  c.known ≠ .nothing → ∃ (t : WeightTable) (reading : Huffman.Reading), t.Full ∧ c.code = t.code ∧ table = some (t.decoder reading) ∧
    (c.known = .complete → ∀ s < 256, t.weight s ≠ 0)

def Room.Fits (r : Room) (n : Nat) : Prop := n ≤ min r.blockMax r.capacity

theorem Room.Fits.check {r : Room} (h : r.Fits n) : r.check n = .ok () := by
  simp_all [Room.Fits, Room.check, if_neg]

/-! ### Stored and repeated literals -/

theorem plainHeader_spec (kind : Nat) (hk : kind < 2) (hn : n < 2 ^ 20) (rest : ByteArray) :
    natAt (plainHeader kind n ++ rest) 0 % 4 = kind ∧ plainSize (plainHeader kind n ++ rest) = (n, (plainHeader kind n).size) ∧
      0 < (plainHeader kind n).size ∧ (plainHeader kind n).size ≤ 3 := by
  have hempty : ByteArray.empty.size = 0 := rfl
  unfold plainHeader plainSize le24 le16
  by_cases h1 : n ≤ 31
  · simp (disch := omega) only [if_pos h1, size_putLe, natAt_putLe_append]
    grind
  by_cases h2 : n ≤ 4095
  · simp (disch := omega) only [if_neg h1, if_pos h2, size_putLe, natAt_putLe_append]
    rw [if_pos (by omega), Prod.mk.injEq]
    omega
  · simp (disch := omega) only [if_neg h1, if_neg h2, size_putLe, natAt_putLe_append]
    rw [if_neg (by omega), if_pos (by omega), Prod.mk.injEq]
    omega

variable {b rest : ByteArray} {room : Room} {table : Option Huffman.Decoder}

/-- What a reader finds: the literals, the place behind them and a table. -/
def Reads (b bytes rest : ByteArray) (room : Room) (table table' : Option Huffman.Decoder) : Prop :=
  ∃ waiting, read (bytes ++ rest) room table = .ok { bytes := b, next := bytes.size, table := table', waiting } ∧
    (waiting = .apart ∨ waiting = room.waiting b.size)

theorem read_writeStored (hn : b.size < 2 ^ 20) (hfits : room.Fits b.size) (hrest : 0 < rest.size) :
    Reads b (writeStored b) rest room table table := by
  have hassoc : writeStored b ++ rest = plainHeader 0 b.size ++ (b ++ rest) := by rw [writeStored, append_assoc]
  obtain ⟨hkind, hplain, hpos, -⟩ := plainHeader_spec 0 (by omega) hn (b ++ rest)
  have hwsize : (writeStored b).size = (plainHeader 0 b.size).size + b.size := by rw [writeStored, size_append]
  have hsize : (plainHeader 0 b.size ++ (b ++ rest)).size = (plainHeader 0 b.size).size + (b.size + rest.size) := by
    rw [size_append, size_append]
  have hslice : slice (plainHeader 0 b.size ++ (b ++ rest)) (plainHeader 0 b.size).size ((plainHeader 0 b.size).size + b.size) = b := by
    rw [← append_assoc]
    exact slice_middle _ _ _
  have hread : ∃ waiting, readStored (plainHeader 0 b.size ++ (b ++ rest)) room table =
      .ok { bytes := b, next := (writeStored b).size, table, waiting } ∧ (waiting = .apart ∨ waiting = room.waiting b.size) := by
    refine ⟨if (plainHeader 0 b.size ++ (b ++ rest)).size < (plainHeader 0 b.size).size + b.size + slack then room.waiting b.size else .apart,
      ?_, ?_⟩
    · unfold readStored
      rw [hplain]
      simp only [bind, Except.bind]
      rw [if_neg (by omega), hfits.check]
      rw [if_neg (by omega), hslice, hwsize]
      rfl
    · grind
  obtain ⟨waiting, hread, hwait⟩ := hread
  refine ⟨waiting, ?_, hwait⟩
  rw [hassoc, read, if_neg (by omega), hkind]
  exact hread

theorem read_writeRepeated (hn : b.size < 2 ^ 20) (hfits : room.Fits b.size) (hrest : 0 < rest.size)
    (heq : ∀ k < b.size, byteAt b k = byteAt b 0) : Reads b (writeRepeated b) rest room table table := by
  have hassoc : writeRepeated b ++ rest = plainHeader 1 b.size ++ (ByteArray.empty.push (byteAt b 0) ++ rest) := by
    rw [writeRepeated, push_eq_append, push_eq_append, empty_append, append_assoc]
  obtain ⟨hkind, hplain, hpos, -⟩ := plainHeader_spec 1 (by omega) hn (ByteArray.empty.push (byteAt b 0) ++ rest)
  have hwsize : (writeRepeated b).size = (plainHeader 1 b.size).size + 1 := by rw [writeRepeated, size_push]
  have hsize : (plainHeader 1 b.size ++ (ByteArray.empty.push (byteAt b 0) ++ rest)).size = (plainHeader 1 b.size).size + (1 + rest.size) := by
    rw [size_append, size_append]
    rfl
  have hbyte : byteAt (plainHeader 1 b.size ++ (ByteArray.empty.push (byteAt b 0) ++ rest)) (plainHeader 1 b.size).size = byteAt b 0 := by
    have hright := byteAt_append_right (a := plainHeader 1 b.size) (b := ByteArray.empty.push (byteAt b 0) ++ rest) 0
    rw [add_zero] at hright
    rw [hright, byteAt_append_left (by simp [size_push])]
    exact byteAt_push_self _
  have hall : replicate b.size (byteAt b 0) = b := by
    refine ext_byteAt (size_replicate _ _) fun k hk => ?_
    rw [size_replicate] at hk
    rw [byteAt_replicate _ hk, heq k hk]
  refine ⟨room.waiting b.size, ?_, .inr rfl⟩
  rw [hassoc, read, if_neg (by omega), hkind]
  change readRepeated _ room table = _
  unfold readRepeated
  rw [hplain]
  simp only [bind, Except.bind]
  rw [if_neg (by omega), hfits.check]
  rw [hbyte, hall, hwsize]
  rfl

/-! ### Coded literals -/

/-- The form of coded literals: zero for one stream, else by the length of the header. -/
def formOf (n : Nat) (single : Bool) : Nat := if n < 1024 then (if single then 0 else 1) else if n < 16384 then 2 else 3

/-- What a reader makes of a header of the given form. -/
def leadOf (b : ByteArray) (form : Nat) : Nat × Nat × Nat :=
  if form < 2 then (3, le32 b 0 / 16 % 1024, le32 b 0 / 2 ^ 14 % 1024)
  else if form = 2 then (4, le32 b 0 / 16 % 2 ^ 14, le32 b 0 / 2 ^ 18)
  else (5, le32 b 0 / 16 % 2 ^ 18, le32 b 0 / 2 ^ 22 + natAt b 4 * 1024)

theorem codedHead_spec (again single : Bool) (hn : n < 2 ^ 18) (htext : text.size < n) (rest : ByteArray) :
    natAt (writeCoded n text again single ++ rest) 0 % 4 = (if again then 3 else 2) ∧
      natAt (writeCoded n text again single ++ rest) 0 / 4 % 4 = formOf n single ∧
      leadOf (writeCoded n text again single ++ rest) (formOf n single) = (codedLead n, n, text.size) ∧
      (writeCoded n text again single).size = codedLead n + text.size ∧
      slice (writeCoded n text again single ++ rest) (codedLead n) (codedLead n + text.size) = text := by
  have hempty : ByteArray.empty.size = 0 := rfl
  have hmid (v m : Nat) : slice (putLe .empty v m ++ (text ++ rest)) m (m + text.size) = text := by
    have := slice_middle (putLe .empty v m) text rest
    rwa [size_putLe, hempty, zero_add, append_assoc] at this
  have hkind : ∃ kind, (if again then 3 else 2) = kind ∧ kind < 4 := ⟨_, rfl, by split <;> omega⟩
  obtain ⟨kind, hkind, hlt⟩ := hkind
  have hform : ∃ f, (if single then 0 else 4) = f ∧ (if single then 0 else 1) = f / 4 ∧ f ≤ 4 ∧ f % 4 = 0 := by
    cases single
    · simp
    · simp
  obtain ⟨f, hf, hf4, hfle, hfmod⟩ := hform
  unfold writeCoded formOf codedLead leadOf
  rw [hkind, hf, hf4]
  simp only [le32_eq, zero_add, append_assoc]
  by_cases h1 : n < 1024
  · simp only [if_pos h1]
    generalize hv : kind + f + 16 * n + 2 ^ 14 * text.size = v
    simp (disch := omega) only [natAt_putLe_append, size_append, size_putLe, hmid]
    rw [if_pos (by omega)]
    refine ⟨by omega, by omega, ?_, by omega, trivial⟩
    rw [Prod.mk.injEq, Prod.mk.injEq]
    exact ⟨rfl, by omega, by omega⟩
  by_cases h2 : n < 16384
  · simp only [if_neg h1, if_pos h2]
    simp (disch := omega) only [natAt_putLe_append, size_append, size_putLe, hmid]
    refine ⟨by omega, by omega, ?_, by omega, trivial⟩
    rw [if_neg (by omega), if_pos trivial, Prod.mk.injEq, Prod.mk.injEq]
    exact ⟨rfl, by omega, by omega⟩
  · simp only [if_neg h1, if_neg h2]
    generalize hv : kind + 12 + 16 * n + 2 ^ 22 * text.size = v
    simp (disch := omega) only [natAt_putLe_append, size_append, size_putLe, hmid]
    have hword : v / 256 ^ 0 % 256 + 256 * (v / 256 ^ 1 % 256) + 65536 * (v / 256 ^ 2 % 256) + 16777216 * (v / 256 ^ 3 % 256) = v % 2 ^ 32 := by
      omega
    refine ⟨by omega, by omega, ?_, by omega, trivial⟩
    rw [if_neg (by omega), if_neg (by omega), Prod.mk.injEq, Prod.mk.injEq]
    exact ⟨rfl, by omega, by omega⟩

def decodeText (t : Huffman.Decoder) (form : Nat) (text : ByteArray) (n : Nat) : Except Fault ByteArray :=
  if form = 0 then t.stream text n .empty else t.fourStreams text n

theorem single_iff (hs : single = true → n < 1024) : formOf n single = 0 ↔ single = true := by
  unfold formOf
  grind

theorem decodeText_textWith (hfull : t.Full) (reading : Huffman.Reading) (hc : Coverable t b 0 b.size)
    (hs : single = true → b.size < 1024) (htext : textWith t.code b single = some text) :
    decodeText (t.decoder reading) (formOf b.size single) text b.size = .ok b ∧ 0 < text.size ∧ (formOf b.size single ≠ 0 → 12 ≤ b.size) := by
  unfold textWith at htext
  unfold decodeText
  cases single with
  | true =>
    obtain rfl := Option.some.inj htext
    have hzero : formOf b.size true = 0 := (single_iff hs).2 rfl
    rw [if_pos hzero, stream_encodeOne hfull reading hc (by omega), zero_add, slice_all, empty_append]
    exact ⟨rfl, size_encodeOne_pos hfull hc, fun h => absurd hzero h⟩
  | false =>
    have hne : formOf b.size false ≠ 0 := fun h => by
      simp_all [single_iff]
    have h12 : 12 ≤ b.size := by
      by_contra hlt
      rw [if_neg (by decide), encodeFour] at htext
      rw [if_pos (by omega)] at htext
      cases htext
    have hfour := fourStreams_encodeFour hfull reading hc htext
    rw [if_neg hne]
    refine ⟨hfour, pos_of_ne_zero fun h0 => ?_, fun _ => h12⟩
    unfold Huffman.Decoder.fourStreams at hfour
    rw [h0] at hfour
    simp [bind, Except.bind] at hfour

section
variable {n lead coded form : Nat}

variable (h5 : 5 ≤ b.size) (hform : natAt b 0 / 4 % 4 = form) (hlead : leadOf b form = (lead, n, coded)) (hfits : room.Fits n) (h12 : form ≠ 0 → 12 ≤ n)

include h5 hform hlead hfits h12

theorem readCoded_again {t : Huffman.Decoder}
    (hsize : lead + coded ≤ b.size)
    (htext : decodeText t form (slice b lead (lead + coded)) n = .ok bytes) :
    readCoded b true room (some t) = .ok { bytes, next := lead + coded, table := some t, waiting := room.waiting n } := by
  unfold Room.Fits at hfits
  unfold leadOf at hlead
  unfold decodeText at htext
  unfold readCoded
  simp only [bind, Except.bind, pure, Except.pure, hform, hlead, Option.isNone_some, Bool.false_eq_true, and_false, if_false]
  grind

theorem readCoded_fresh
    (hcoded : coded ≠ 0) (hsize : lead + coded ≤ b.size) (hread : WeightTable.read (slice b lead (lead + coded)) = .ok (u, used))
    (hused : used < (slice b lead (lead + coded)).size)
    (hreading : (if form = 0 then .singly else Huffman.Reading.choose n coded) = reading)
    (htext : decodeText (u.decoder reading) form (slice (slice b lead (lead + coded)) used (slice b lead (lead + coded)).size) n = .ok bytes)
    (table : Option Huffman.Decoder) :
    readCoded b false room table =
      .ok { bytes, next := lead + coded, table := some (u.decoder reading), waiting := room.waiting n } := by
  unfold Room.Fits at hfits
  unfold leadOf at hlead
  unfold decodeText at htext
  unfold readCoded
  simp only [bind, Except.bind, pure, Except.pure, hform, hlead, hread, hreading, Bool.false_eq_true, false_and, if_false]
  grind

end

/-! ### Whatever way they are written -/

theorem codedLead_ge (n : Nat) : 3 ≤ codedLead n := by
  grind [codedLead]

theorem read_coded (h2 : 2 ≤ b.size) (hkind : natAt b 0 % 4 = if again then 3 else 2) :
    read b room table = readCoded b again room table := by
  rw [read, if_neg (by omega), hkind]
  cases again <;> rfl

theorem read_writeCoded_again (hfull : t.Full) (hc : Coverable t b 0 b.size)
    (hs : single = true → b.size < 1024) (htext : textWith t.code b single = some text) (hshort : text.size < b.size)
    (hn : b.size < 2 ^ 18) (hfits : room.Fits b.size) (hrest : 0 < rest.size) :
    Reads b (writeCoded b.size text true single) rest room (some (t.decoder reading)) (some (t.decoder reading)) := by
  obtain ⟨hkind, hform, hlead, hsize, hslice⟩ := codedHead_spec true single hn hshort rest
  obtain ⟨hdec, hpos, h12⟩ := decodeText_textWith hfull reading hc hs htext
  have h3 := codedLead_ge b.size
  have htotal : (writeCoded b.size text true single ++ rest).size = codedLead b.size + text.size + rest.size := by
    rw [size_append, hsize]
  refine ⟨room.waiting b.size, ?_, .inr rfl⟩
  rw [read_coded (by omega) hkind, readCoded_again (by omega) hform hlead hfits h12 (by omega) (by rw [hslice]; exact hdec), hsize]

theorem read_writeCoded_fresh (hfull : u.Full) (hc : Coverable u b 0 b.size)
    (hs : single = true → b.size < 1024) (hread : ∀ rest, WeightTable.read (head ++ rest) = .ok (u, head.size))
    (htext : textWith u.code b single = some body) (hshort : (head ++ body).size < b.size)
    (hn : b.size < 2 ^ 18) (hfits : room.Fits b.size) (hrest : 0 < rest.size) (table : Option Huffman.Decoder) :
    ∃ reading, Reads b (writeCoded b.size (head ++ body) false single) rest room table (some (u.decoder reading)) := by
  obtain ⟨hkind, hform, hlead, hsize, hslice⟩ := codedHead_spec false single hn hshort rest
  generalize hreading : (if formOf b.size single = 0 then .singly else Huffman.Reading.choose b.size (head ++ body).size : Huffman.Reading) = reading
  obtain ⟨hdec, hpos, h12⟩ := decodeText_textWith hfull reading hc hs htext
  have h3 := codedLead_ge b.size
  have hbody : (head ++ body).size = head.size + body.size := size_append
  have htotal : (writeCoded b.size (head ++ body) false single ++ rest).size = codedLead b.size + (head ++ body).size + rest.size := by
    rw [size_append, hsize]
  refine ⟨reading, room.waiting b.size, ?_, .inr rfl⟩
  rw [read_coded (by omega) hkind, readCoded_fresh (by omega) hform hlead hfits h12 (by omega) (by omega) (by rw [hslice]; exact hread body) (by rw [hslice]; omega)
    hreading (by rw [hslice, slice_append_right]; exact hdec), hsize]

/-- Literals are read back as they were written. -/
theorem read_write (hold : old.Shared table) (hn : b.size < 2 ^ 18)
    (hfits : room.Fits b.size) (hrest : 0 < rest.size) (h : write b p old = (bytes, new)) :
    ∃ table', Reads b bytes rest room table table' ∧ new.Shared table' := by
  have hstored : ∃ table', Reads b (writeStored b) rest room table table' ∧ old.Shared table' :=
    ⟨table, read_writeStored (by omega) hfits hrest, hold⟩
  have hrepeated (heq : ∀ k < b.size, byteAt b k = byteAt b 0) : ∃ table', Reads b (writeRepeated b) rest room table table' ∧ old.Shared table' :=
    ⟨table, read_writeRepeated (by omega) hfits hrest heq, hold⟩
  -- a table for the code that is known, whatever it is where none is known
  obtain ⟨t, reading, hfull, hcode, htable, hcomplete⟩ : ∃ (t : WeightTable) (reading : Huffman.Reading), (old.known ≠ .nothing → t.Full) ∧
      (old.known ≠ .nothing → old.code = t.code) ∧ (old.known ≠ .nothing → table = some (t.decoder reading)) ∧
      (old.known = .complete → Coverable t b 0 b.size) := by
    by_cases hk : old.known = .nothing
    · simp_all
    · obtain ⟨t, reading, h1, h2, h3, h4⟩ := hold hk
      exact ⟨t, reading, fun _ => h1, fun _ => h2, fun _ => h3, fun hc k _ => h4 hc _ (natAt_lt _ _)⟩
  unfold write at h
  dsimp only at h
  split at h
  · simp_all
  generalize hsingle : (decide (b.size < 256) || (decide (old.known = .complete) && decide (codedLead b.size = 3))) = single at h
  have hs : single = true → b.size < 1024 := fun ht => by
    rw [← hsingle, Bool.or_eq_true, Bool.and_eq_true, decide_eq_true_eq, decide_eq_true_eq, decide_eq_true_eq] at ht
    rcases ht with ht | ht
    · omega
    · grind [codedLead]
  have hout := compress_outcome (t := t) (lt_trans hn (by decide)) single
    { preferRepeat := decide (p.strategy.rank < 4) && decide (b.size ≤ 1024), searchLimit := decide (8 ≤ p.strategy.rank)
      suspicious := p.suspicious } hcode hcomplete
  generalize compress b single _ old.known old.code = out at h hout
  cases hout with
  | refused =>
    simp_all
  | constant heq =>
    grind
  | again hknown hc htext hshort =>
    dsimp only at h
    split at h
    · simp_all
    split at h
    · rename_i heq
      rw [Bool.and_eq_true, allEqual, bytesEq_iff] at heq
      grind [byteAt_replicate]
    · grind [read_writeCoded_again]
  | fresh hfullu hread hc htext hshort =>
    dsimp only at h
    split at h
    · simp_all
    · obtain ⟨rfl, rfl⟩ := Prod.mk.inj h
      obtain ⟨reading', hreads⟩ := read_writeCoded_fresh hfullu hc hs hread htext (by omega) hn hfits hrest table
      exact ⟨_, hreads, fun _ => ⟨_, reading', hfullu, rfl, rfl, nofun⟩⟩

end ZstCodec.Literals
