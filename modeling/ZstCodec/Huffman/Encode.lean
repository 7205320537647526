import ZstCodec.Huffman.Weights
import ZstCodec.Known

/-! # Writing text in a Huffman code

A text is written backwards, so that its reader meets it forwards. Texts of 256 bytes and more are split into four
streams. -/

namespace ZstCodec.Huffman

def encodeBytes (c : Code) (b : ByteArray) (i : Nat) (w : BitWriter) : Nat → BitWriter
  | 0 => w
  | n + 1 =>
    let s := natAt b (i + n)
    encodeBytes c b i (w.addNat (c.values.getD s 0) (c.widths.getD s 0)) n

def encodeOne (c : Code) (b : ByteArray) (i n : Nat) : ByteArray :=
  (encodeBytes c b i {} n).close

/-- Four streams behind a table of the first three lengths; `none` if a length does not fit. -/
def encodeFour (c : Code) (b : ByteArray) : Option ByteArray :=
  let n := b.size
  let part := (n + 3) / 4
  if n < 12 then none
  else
    let s1 := encodeOne c b 0 part
    let s2 := encodeOne c b part part
    let s3 := encodeOne c b (2 * part) part
    let s4 := encodeOne c b (3 * part) (n - 3 * part)
    if 65535 < s1.size ∨ 65535 < s2.size ∨ 65535 < s3.size ∨ 65535 < s4.size then none
    else
      let head := putLe (putLe (putLe .empty s1.size 2) s2.size 2) s3.size 2
      some (head ++ s1 ++ s2 ++ s3 ++ s4)

def bestLimit (h : Histogram) (most : Nat) : Nat :=
  let least := highBit h.distinct + 1
  let rec go (best bestSize guess : Nat) (found : Bool) : Nat → Nat
    | 0 => best
    | fuel + 1 =>
      if most < guess then best
      else
        let c := build h guess
        if c.log < guess ∧ least < guess then best
        else match c.write with
          | none => go best bestSize (guess + 1) found fuel
          | some head =>
            let size := c.estimate h + head.size
            if found && bestSize + 1 < size then best
            else if found && bestSize ≤ size then go best bestSize (guess + 1) found fuel
            else go guess size (guess + 1) true fuel
  go most 0 least false (most + 1)

/-- How a code is chosen. -/
structure Choice where
  /-- A code already known to the reader may be used again even when a new one were shorter. -/
  preferRepeat : Bool
  searchLimit : Bool
  suspicious : Bool

/-- Outcome of coding a text. -/
inductive Coded where
  | refused
  | constant
  | again (bytes : ByteArray)
  | fresh (code : Code) (bytes : ByteArray)

def textWith (c : Code) (b : ByteArray) (single : Bool) : Option ByteArray :=
  if single then some (encodeOne c b 0 b.size) else encodeFour c b

/-- Code with the earlier code if the result is shorter than the text by at least two bytes. -/
def codeAgain (c : Code) (b : ByteArray) (single : Bool) : Coded :=
  match textWith c b single with
  | some bytes => if b.size ≤ bytes.size + 1 then .refused else .again bytes
  | none => .refused

def looksRandom (b : ByteArray) : Bool :=
  40960 ≤ b.size &&
    (Histogram.ofBytes b 0 4096).largest + (Histogram.ofBytes b (b.size - 4096) 4096).largest
      ≤ 68

def compress (b : ByteArray) (single : Bool) (choice : Choice) (known : Known) (old : Code) :
    Coded :=
  let n := b.size
  if n = 0 then .refused
  else if choice.preferRepeat && known = .complete then codeAgain old b single
  else if choice.suspicious && looksRandom b then .refused
  else
    let h := Histogram.ofBytes b 0 n
    if h.largest = n then .constant
    else if h.largest ≤ n / 128 + 4 then .refused
    else
      let known := if known = .unchecked ∧ !old.covers h then .nothing else known
      if choice.preferRepeat && known ≠ .nothing then codeAgain old b single
      else
        let limit :=
          if choice.searchLimit then bestLimit h 11 else Fse.bestLog 11 n h.maxSymbol 1
        let c := build h limit
        match c.write with
        | none => .refused
        | some head =>
          if known ≠ .nothing ∧
              (old.estimate h ≤ head.size + c.estimate h ∨ n ≤ head.size + 12) then
            codeAgain old b single
          else if n ≤ head.size + 12 then .refused
          else match textWith c b single with
            | some body =>
              let bytes := head ++ body
              if n ≤ bytes.size + 1 then .refused else .fresh c bytes
            | none => .refused

end ZstCodec.Huffman
