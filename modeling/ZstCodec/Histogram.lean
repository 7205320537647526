import ZstCodec.Bytes

/-! # Histograms

How often each symbol occurs. A histogram is trimmed: its last entry belongs to the largest symbol that
occurs. -/

namespace ZstCodec

/-- Occurrences of each symbol, up to the largest one that occurs. -/
structure Histogram where
  counts : Array Nat
  largest : Nat
  deriving Repr

namespace Histogram

def trim (a : Array Nat) : Nat → Array Nat
  | 0 => a
  | n + 1 => if a.getD n 0 = 0 ∧ 0 < n then trim (a.pop) n else a

def ofCounts (a : Array Nat) : Histogram :=
  { counts := trim a a.size, largest := a.foldl max 0 }

def countBytes (b : ByteArray) (i : Nat) (a : Array Nat) : Nat → Array Nat
  | 0 => a
  | n + 1 => countBytes b (i + 1) (a.modify (natAt b i) (· + 1)) n

def ofBytes (b : ByteArray) (i n : Nat) : Histogram :=
  ofCounts (countBytes b i (Array.replicate 256 0) n)

def ofSymbols (symbols : Array Nat) : Histogram :=
  ofCounts (symbols.foldl (fun a s => a.modify s (· + 1)) (Array.replicate 256 0))

def maxSymbol (h : Histogram) : Nat := h.counts.size - 1

def count (h : Histogram) (s : Nat) : Nat := h.counts.getD s 0

def distinct (h : Histogram) : Nat := h.counts.foldl (fun n c => if c = 0 then n else n + 1) 0

end Histogram

end ZstCodec
