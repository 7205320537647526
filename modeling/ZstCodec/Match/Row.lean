import ZstCodec.Match.Search

/-! # Hash rows

A row of the hash table keeps the last positions of its hashes in a ring, the newest first, and beside each a *tag*,
further bits of the hash, by which others are passed over. The first place of a row holds the place of the newest entry
instead. -/

namespace ZstCodec.Match.Row

def tagCount : Nat := 256

def rowLog (t : Tuning) : Nat := min (max t.searchLog 4) 6

def hasher (t : Tuning) (log width : Nat) (salt : UInt64) : Hasher := .ofWidth width (t.hashLog - log + 8) salt

/-- The place before the newest entry, in a ring that leaves out the first place. -/
@[inline] def placeBefore (size head : Nat) : Nat :=
  let p := (head + size - 1) % size
  if p = 0 then size - 1 else p

@[inline] def put (size hashed i : Nat) (hash tags : Table) : Table × Table :=
  let row := hashed / tagCount * size
  let p := placeBefore size (tags.get row)
  (hash.set (row + p) i, (tags.set row p).set (row + p) (hashed % tagCount))

def enter (h : Hasher) (b : ByteArray) (size stop i : Nat) (hash tags : Table) : Nat → Table × Table
  | 0 => (hash, tags)
  | fuel + 1 =>
    if i < stop then
      let (hash, tags) := put size (h.hashAt b i) i hash tags
      enter h b size stop (i + 1) hash tags fuel
    else (hash, tags)

/-- As `enter`; of many positions only the first and the last are entered. -/
def enterSome (h : Hasher) (b : ByteArray) (size stop i : Nat) (hash tags : Table) : Table × Table :=
  if 384 < stop - i then
    let (hash, tags) := enter h b size (i + 96) i hash tags 96
    enter h b size stop (stop - 32) hash tags 32
  else enter h b size stop i hash tags (stop - i)

/-- Positions of a row with the tag, the newest first, up to one out of reach, and how many more may be looked at. -/
def candidates (hash tags : Table) (size row tag head low : Nat) (found : List Nat) (i left : Nat) :
    Nat → List Nat × Nat
  | 0 => (found.reverse, left)
  | fuel + 1 =>
    if left = 0 then (found.reverse, 0)
    else
      let p := (head + i) % size
      if p ≠ 0 && tags.get (row + p) == tag then
        let m := hash.get (row + p)
        if m < low then (found.reverse, left)
        else candidates hash tags size row tag head low (m :: found) (i + 1) (left - 1) fuel
      else candidates hash tags size row tag head low found (i + 1) left fuel

def bestOf (b : ByteArray) (pos stop : Nat) (best : Best) : List Nat → Best
  | [] => best
  | m :: rest =>
    let better := best.consider b pos m stop
    if best.length < better.length && pos + better.length == stop then better
    else bestOf b pos stop better rest

def look (hash tags : Table) (size hashed low left : Nat) : List Nat × Nat :=
  let row := hashed / tagCount * size
  candidates hash tags size row (hashed % tagCount) (tags.get row % size) low [] 0 left size

def search (f : Finder) (stop : Nat) (dict : Option Attached) : Searcher :=
  let t := f.tuning
  let log := rowLog t
  let size := 2 ^ log
  let width := searchWidth t
  let h := hasher t log width f.salt
  let b := f.content
  fun e pos skipping =>
    let ⟨hash, chain, tags, next⟩ := e
    let (hash, tags) := if skipping then (hash, tags) else enterSome h b size pos next hash tags
    let hashed := h.hashAt b pos
    let (ms, left) := look hash tags size hashed (f.lowest pos) (2 ^ min t.searchLog log)
    let (hash, tags) := put size hashed pos hash tags
    let best := bestOf b pos stop .none ms
    let best := match dict with
      | none => best
      | some d =>
        let hashed := (hasher d.tuning log width 0).hashAt b pos
        bestOf b pos stop best (look d.tables.hash d.tables.tags size hashed d.low left).1
    ⟨⟨hash, chain, tags, pos + 1⟩, best⟩

end ZstCodec.Match.Row
