import ZstCodec.Bytes
import ZstCodec.Session.Value

/-! # Declarations for a reader of headers

Remarks about visibility are cut off the start of their line; lines with remarks about deprecated or unused declarations
are left out. -/

namespace ZstCodec.Packaging

open Session

def splitLines (line : List UInt8) : List UInt8 → List (List UInt8)
  | [] => if line.isEmpty then [] else [line.reverse]
  | 13 :: 10 :: rest => line.reverse :: splitLines [] rest
  | x :: rest => if x = 10 || x = 13 then line.reverse :: splitLines [] rest else splitLines (x :: line) rest

def visibilityMark : List UInt8 := "__attribute__ ((visibility (\"default\"))) ".toUTF8.toList

def deprecatedMark : List UInt8 := "__attribute__((deprecated".toUTF8.toList

def deprecatedInside : List UInt8 := "__declspec(deprecated(".toUTF8.toList

def unusedMark : List UInt8 := "__attribute__((__unused__))".toUTF8.toList

def occursIn (x : List UInt8) : List UInt8 → Bool
  | [] => x.isEmpty
  | y :: ys => x.isPrefixOf (y :: ys) || occursIn x ys

def cleanLine (line : List UInt8) : Option (List UInt8) :=
  let line := if visibilityMark.isPrefixOf line then line.drop visibilityMark.length else line
  if deprecatedMark.isPrefixOf line || occursIn deprecatedInside line || unusedMark.isPrefixOf line then none else some line

def cleanDeclarations (b : ByteArray) : List UInt8 :=
  [(10 : UInt8)].intercalate ((splitLines [] b.toList).filterMap cleanLine)

def declarationsOf : Value → Except Failure String
  | .bytes .view _ => .error .noAttribute
  | .bytes _ b => .ok (String.ofList ((cleanDeclarations b).map fun x => Char.ofNat x.toNat))
  | .text s => if s = "" then .ok "" else .error .wrongType
  | _ => .error .noAttribute

end ZstCodec.Packaging
