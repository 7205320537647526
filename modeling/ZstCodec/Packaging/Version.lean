import ZstCodec.Failure

/-! # Loose versions

A version is a list of numbers and words, however they are divided. Versions are compared part by part; a number cannot be
compared with a word. -/

namespace ZstCodec.Packaging

inductive VersionPart where
  | number (n : Nat)
  | word (s : String)
  deriving DecidableEq, Repr

/-- What a character is in a version. -/
inductive CharClass where
  | digit | lower | dot | other
  deriving DecidableEq, Repr

def CharClass.of (c : Char) : CharClass :=
  if c.isDigit then .digit else if c.isLower then .lower else if c = '.' then .dot else .other

def runs : List Char → List (CharClass × List Char)
  | [] => []
  | c :: cs =>
    match runs cs with
    | (k, run) :: rest => if CharClass.of c = k && k ≠ .dot then (k, c :: run) :: rest else (CharClass.of c, [c]) :: (k, run) :: rest
    | [] => [(CharClass.of c, [c])]

def digitsNat (cs : List Char) : Nat := cs.foldl (fun n c => 10 * n + (c.toNat - 48)) 0

def versionParts (s : String) : List VersionPart :=
  (runs s.toList).filterMap fun (k, run) => match k with
    | .digit => some (.number (digitsNat run))
    | .dot => none
    | _ => some (.word (String.ofList run))

def versionLess : List VersionPart → List VersionPart → Except Failure Bool
  | [], [] => .ok false
  | [], _ :: _ => .ok true
  | _ :: _, [] => .ok false
  | a :: as, b :: bs =>
    if a = b then versionLess as bs
    else match a, b with
      | .number m, .number n => .ok (m < n)
      | .word s, .word t => .ok (s < t)
      | _, _ => .error .wrongType

end ZstCodec.Packaging
