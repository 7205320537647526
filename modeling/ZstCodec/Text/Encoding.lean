import ZstCodec.Bytes
import ZstCodec.Failure

/-! # Encodings of text

An encoding turns characters into bytes and back. A decoder may stop before an incomplete character at the end of a
piece and wait for more. What cannot be encoded or decoded is handled as the error mode says. -/

namespace ZstCodec.Text

inductive Encoding where
  | utf8
  | utf16le
  | latin1
  | ascii
  deriving DecidableEq, Repr

def normalizeName (s : String) : String :=
  String.ofList (s.toList.map fun c => if c = '-' || c = ' ' then '_' else c.toLower)

def Encoding.ofName? (s : String) : Option Encoding :=
  let s := normalizeName s
  if ["utf_8", "utf8", "u8", "utf", "cp65001"].contains s then some .utf8
  else if ["utf_16_le", "utf_16le"].contains s then some .utf16le
  else if ["latin_1", "latin1", "latin", "l1", "iso8859_1", "iso_8859_1", "iso8859", "8859", "cp819"].contains s then some .latin1
  else if ["ascii", "us_ascii", "646"].contains s then some .ascii
  else none

/-- What to do about an error. -/
inductive ErrorMode where
  | strict
  | ignore
  | replace
  | backslash
  | reference
  | unknown
  deriving DecidableEq, Repr

def ErrorMode.ofName (s : String) : ErrorMode :=
  match s with
  | "strict" => .strict
  | "ignore" => .ignore
  | "replace" => .replace
  | "backslashreplace" => .backslash
  | "xmlcharrefreplace" => .reference
  | _ => .unknown

def hexDigits (v : Nat) : Nat → List Char
  | 0 => []
  | n + 1 => hexDigits (v / 16) n ++ [Char.ofNat (if v % 16 < 10 then 48 + v % 16 else 87 + v % 16)]

def backslashed (v : Nat) : List Char :=
  if v < 256 then '\\' :: 'x' :: hexDigits v 2
  else if v < 65536 then '\\' :: 'u' :: hexDigits v 4
  else '\\' :: 'U' :: hexDigits v 8

/-! ### Encoding -/

def substitute (mode : ErrorMode) (c : Char) : Except Failure (List Char) :=
  match mode with
  | .strict => .error .unencodable
  | .ignore => .ok []
  | .replace => .ok ['?']
  | .backslash => .ok (backslashed c.toNat)
  | .reference => .ok ('&' :: '#' :: ((toString c.toNat).toList ++ [';']))
  | .unknown => .error .unknownEncoding

/-- Encode with one byte per character; only characters below the limit can be encoded. -/
def encodeNarrow (limit : Nat) (mode : ErrorMode) (cs : List Char) : Except Failure ByteArray :=
  cs.foldlM
    (fun out c =>
      if c.toNat < limit then .ok (out.push c.toNat.toUInt8)
      else do return (← substitute mode c).foldl (fun out c => out.push c.toNat.toUInt8) out)
    .empty

def units (c : Char) : List Nat :=
  let n := c.toNat
  if n < 65536 then [n] else [0xD800 + (n - 65536) / 1024, 0xDC00 + (n - 65536) % 1024]

def Encoding.encode (e : Encoding) (mode : ErrorMode) (cs : List Char) : Except Failure ByteArray :=
  match e with
  | .utf8 => .ok (String.ofList cs).toUTF8
  | .utf16le => .ok (cs.foldl (fun out c => (units c).foldl (fun out u => putLe out u 2) out) .empty)
  | .latin1 => encodeNarrow 256 mode cs
  | .ascii => encodeNarrow 128 mode cs

/-! ### Decoding -/

/-- What stands at a place of an encoded text. -/
inductive Glyph where
  | char (c : Char) (size : Nat)
  | bad (size : Nat)
  /-- The start of a character whose rest may still come. -/
  | partial_ (size : Nat)
  deriving Repr

def isTail (v : Nat) : Bool := 128 ≤ v && v < 192

/-- The second bytes allowed behind the first: no longer forms than needed, no surrogates, no large numbers. -/
def secondAllowed (first second : Nat) : Bool :=
  isTail second && ! (first = 0xE0 && second < 0xA0) && ! (first = 0xED && 0xA0 ≤ second)
    && ! (first = 0xF0 && second < 0x90) && ! (first = 0xF4 && 0x90 ≤ second)

def glyph8 (b : ByteArray) (i stop : Nat) : Glyph :=
  let at_ (k : Nat) : Nat := natAt b (i + k)
  let first := at_ 0
  let n := stop - i
  if first < 0x80 then .char (Char.ofNat first) 1
  else if first < 0xC2 || 0xF5 ≤ first then .bad 1
  else if n < 2 then .partial_ n
  else if ! secondAllowed first (at_ 1) then
    -- such a surrogate is told from an incomplete one only when its third byte is there
    if n = 2 && first = 0xED && isTail (at_ 1) then .partial_ 1 else .bad 1
  else if first < 0xE0 then .char (Char.ofNat ((first - 0xC0) * 64 + (at_ 1 - 128))) 2
  else if n < 3 then .partial_ n
  else if ! isTail (at_ 2) then .bad 2
  else if first < 0xF0 then
    .char (Char.ofNat (((first - 0xE0) * 64 + (at_ 1 - 128)) * 64 + (at_ 2 - 128))) 3
  else if n < 4 then .partial_ n
  else if ! isTail (at_ 3) then .bad 3
  else
    .char (Char.ofNat ((((first - 0xF0) * 64 + (at_ 1 - 128)) * 64 + (at_ 2 - 128)) * 64 + (at_ 3 - 128))) 4

def glyph16 (b : ByteArray) (i stop : Nat) : Glyph :=
  let n := stop - i
  if n < 2 then .partial_ n
  else
    let u := le16 b i
    if u < 0xD800 || 0xE000 ≤ u then .char (Char.ofNat u) 2
    else if 0xDC00 ≤ u then .bad 2
    else if n < 4 then .partial_ n
    else
      let v := le16 b (i + 2)
      if 0xDC00 ≤ v && v < 0xE000 then .char (Char.ofNat (65536 + (u - 0xD800) * 1024 + (v - 0xDC00))) 4 else .bad 2

def Encoding.glyph (e : Encoding) (b : ByteArray) (i stop : Nat) : Glyph :=
  match e with
  | .utf8 => glyph8 b i stop
  | .utf16le => glyph16 b i stop
  | .latin1 => .char (Char.ofNat (natAt b i)) 1
  | .ascii => if natAt b i < 128 then .char (Char.ofNat (natAt b i)) 1 else .bad 1

def mend (mode : ErrorMode) (b : ByteArray) (i n : Nat) : Except Failure (List Char) :=
  match mode with
  | .strict => .error .undecodable
  | .ignore => .ok []
  | .replace => .ok ['�']
  | .backslash => .ok ((List.range n).flatMap fun k => backslashed (natAt b (i + k)))
  | .reference => .error .wrongType
  | .unknown => .error .unknownEncoding

/-- Decode from `i` on: the characters, last one first, and the place of an incomplete one. -/
def decodeFrom (e : Encoding) (mode : ErrorMode) (final : Bool) (b : ByteArray) (i : Nat) (out : List Char) :
    Nat → Except Failure (List Char × Nat)
  | 0 => .ok (out, i)
  | fuel + 1 =>
    if b.size ≤ i then .ok (out, i)
    else
      let skip (n : Nat) : Except Failure (List Char × Nat) := do
        decodeFrom e mode final b (i + n) ((← mend mode b i n).reverse ++ out) fuel
      match e.glyph b i b.size with
      | .char c n => decodeFrom e mode final b (i + n) (c :: out) fuel
      | .bad n => skip n
      | .partial_ n => if final then skip n else .ok (out, i)

def Encoding.decode (e : Encoding) (mode : ErrorMode) (final : Bool) (b : ByteArray) :
    Except Failure (List Char × ByteArray) := do
  let (out, i) ← decodeFrom e mode final b 0 [] b.size
  return (out.reverse, slice b i b.size)

end ZstCodec.Text
