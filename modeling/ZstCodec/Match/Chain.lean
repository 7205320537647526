import ZstCodec.Match.Search

/-! # Hash chains

The hash table has the last position of each hash, the chain table for each position the one before it. The chain table
is a ring, so that chains end where it has been written over. -/

namespace ZstCodec.Match.Chain

/-- Enter the positions from `i` up to `stop`; only one of them if the search is skipping. -/
def enter (h : Hasher) (b : ByteArray) (ring stop : Nat) (skipping : Bool) (i : Nat) (hash chain : Table) :
    Nat → Table × Table
  | 0 => (hash, chain)
  | fuel + 1 =>
    if i < stop then
      let k := h.hashAt b i
      let chain := chain.set (i % ring) (hash.get k)
      let hash := hash.set k i
      if skipping then (hash, chain) else enter h b ring stop skipping (i + 1) hash chain fuel
    else (hash, chain)

/-- A chain to be walked. -/
structure Walk where
  b : ByteArray
  chain : Table
  ring : Nat
  low : Nat
  floor : Nat
  stop : Nat

/-- Walk a chain from `m` on; also tell how many candidates may still be looked at. -/
def Walk.run (w : Walk) (pos m : Nat) (best : Best) : Nat → Best × Nat
  | 0 => (best, 0)
  | left + 1 =>
    if m < w.low then (best, left + 1)
    else
      let better := best.consider w.b pos m w.stop
      if best.length < better.length && pos + better.length == w.stop then (better, left + 1)
      else if m ≤ w.floor then (better, left + 1)
      else w.run pos (w.chain.get (m % w.ring)) better left

def search (f : Finder) (stop : Nat) (dict : Option Attached) : Searcher :=
  let t := f.tuning
  let h := Hasher.ofWidth (searchWidth t) t.hashLog 0
  let ring := 2 ^ t.chainLog
  let b := f.content
  fun e pos skipping =>
    let ⟨hash, chain, tags, next⟩ := e
    let (hash, chain) := enter h b ring pos skipping next hash chain (pos - next)
    let m := hash.get (h.hashAt b pos)
    let w : Walk := { b, chain, ring, low := f.lowest pos, floor := pos - ring, stop }
    let (best, left) := w.run pos m .none (2 ^ t.searchLog)
    let best := match dict with
      | none => best
      | some d =>
        let ring := 2 ^ d.tuning.chainLog
        let hd := Hasher.ofWidth (searchWidth t) d.tuning.hashLog 0
        let m := d.tables.hash.get (hd.hashAt b pos)
        let w : Walk := { b, chain := d.tables.chain, ring, low := d.low, floor := d.stop - ring, stop }
        (w.run pos m best left).1
    ⟨⟨hash, chain, tags, pos⟩, best⟩

end ZstCodec.Match.Chain
