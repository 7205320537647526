import ZstCodec.Match.Fast
import ZstCodec.Match.DoubleFast
import ZstCodec.Match.Chain
import ZstCodec.Match.Row
import ZstCodec.Match.Tree

/-! # Filling tables

The positions of a prepared dictionary, or of earlier input that a job starts from, are entered into the tables before
anything is searched. -/

namespace ZstCodec.Match

namespace Finder

/-- Enter the positions from `next` to `stop` into the tables of the slower strategies. -/
def fillSlow (f : Finder) (stop : Nat) : Finder :=
  let t := f.tuning
  let b := f.content
  let last := stop - hashReach
  let ⟨hash, chain, hash3, tags⟩ := f.tables
  let f := { f with tables := {} }
  let tables : Tables :=
    if t.strategy.usesTree then
      let h := Hasher.ofWidth (Fast.hashWidth t) t.hashLog 0
      let (hash, chain) :=
        Tree.update (Tree.hunt f stop).ground h (2 ^ t.searchLog) (f.lowest last) last f.next hash chain stop
      { hash, chain, hash3, tags }
    else if f.rows then
      let log := Row.rowLog t
      let h := Row.hasher t log (searchWidth t) f.salt
      let (hash, tags) := Row.enter h b (2 ^ log) last f.next hash tags stop
      { hash, chain, hash3, tags }
    else
      let h := Hasher.ofWidth (Fast.hashWidth t) t.hashLog 0
      let (hash, chain) := Chain.enter h b (2 ^ t.chainLog) last false f.next hash chain stop
      { hash, chain, hash3, tags }
  { f with tables, next := stop }

def fillDictionary (f : Finder) : Finder :=
  let t := f.tuning
  let b := f.content
  let stop := b.size
  match t.strategy with
  | .fast =>
    let h := Hasher.ofWidth (Fast.hashWidth t) (t.hashLog + 8) 0
    let hash := Fast.fillTagged h b stop f.next f.tables.hash stop
    { f with tables := { f.tables with hash }, next := stop }
  | .dfast =>
    let hl := Hasher.ofWidth 8 (t.hashLog + 8) 0
    let hs := Hasher.ofWidth (Fast.hashWidth t) (t.chainLog + 8) 0
    let (hash, chain) := DoubleFast.fillTagged hl hs b stop f.next f.tables.hash f.tables.chain stop
    { f with tables := { f.tables with hash, chain }, next := stop }
  | _ => f.fillSlow stop

/-- What the fast strategies passed over is entered for them, up to `stop`. -/
def fillFast (f : Finder) (stop : Nat) : Finder :=
  let t := f.tuning
  let ⟨hash, chain, hash3, tags⟩ := f.tables
  let f := { f with tables := {} }
  match t.strategy with
  | .fast =>
    let h := Hasher.ofWidth (Fast.hashWidth t) t.hashLog 0
    let hash := Fast.fillFrom h f.content stop f.next hash (stop - f.next)
    { f with tables := { hash, chain, hash3, tags } }
  | .dfast =>
    let hl := Hasher.ofWidth 8 t.hashLog 0
    let hs := Hasher.ofWidth (Fast.hashWidth t) t.chainLog 0
    let (hash, chain) := DoubleFast.fillFrom hl hs f.content stop f.next hash chain (stop - f.next)
    { f with tables := { hash, chain, hash3, tags } }
  | _ => { f with tables := { hash, chain, hash3, tags } }

def fillInput (f : Finder) : Finder :=
  let stop := f.content.size
  match f.tuning.strategy with
  | .fast | .dfast => { f.fillFast stop with next := stop }
  | _ => f.fillSlow stop

def mostEntered (t : Tuning) : Nat :=
  if t.strategy.rank < 8 then 8 * 2 ^ min (max t.hashLog t.chainLog) 28 else 2 ^ 32

/-- Put content in front of the input. Unless the window counts from the start, all of it is in reach until it has left
the window. -/
def load (f : Finder) (content : ByteArray) (forceWindow : Bool) (fill : Finder → Finder) : Finder :=
  let n := min content.size (mostEntered f.tuning)
  let all := f.content ++ content
  let f := { f with
    content := all
    next := all.size - n
    dictEnd := if forceWindow then 0 else all.size }
  if n ≤ hashReach then f else fill f

end Finder

def hasTags (s : Strategy) : Bool := s = .fast || s = .dfast

def Tables.untagged (t : Tables) (s : Strategy) : Tables :=
  if hasTags s then
    { t with hash := t.hash.map (· / Fast.tagSize), chain := t.chain.map (· / Fast.tagSize) }
  else t

end ZstCodec.Match
