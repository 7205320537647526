import ZstCodec.Bytes

/-! # Tables of positions

A table of `2 ^ log` numbers, all zero at first, in pages that come into being when they are first written. -/

namespace ZstCodec.Match

def pageSize : Nat := 1024

structure Table where
  pages : Array (Array Nat)

namespace Table

def zeros (log : Nat) : Table := { pages := Array.replicate (2 ^ log / pageSize + 1) #[] }

def none : Table := { pages := #[] }

@[inline] def get (t : Table) (i : Nat) : Nat := (t.pages.getD (i / pageSize) #[]).getD (i % pageSize) 0

@[inline] def setPage (page : Array Nat) (j v : Nat) : Array Nat :=
  if page.size = 0 then (Array.replicate pageSize 0).setIfInBounds j v else page.setIfInBounds j v

@[inline] def set (t : Table) (i v : Nat) : Table :=
  { pages := t.pages.modify (i / pageSize) fun page => setPage page (i % pageSize) v }

def map (f : Nat → Nat) (t : Table) : Table := { pages := t.pages.map fun page => page.map f }

end Table

end ZstCodec.Match
