import ZstCodec.Failure

/-! # Words with quotes

A text is split into words at blanks. Quotes keep blanks together and are dropped, as is a backslash outside of quotes.
Within quotes a backslash and the character after it stay, even if that is the quote. -/

namespace ZstCodec.Packaging

def isBlank (c : Char) : Bool := c = ' ' || ('\t' ≤ c && c ≤ '\r')

/-- What is quoted, last character first before `word`, and what follows the closing quote. -/
def quotedPart (quote : Char) (word : List Char) : List Char → Option (List Char × List Char)
  | [] => none
  | '\\' :: c :: cs => if c = '\n' then none else quotedPart quote (c :: '\\' :: word) cs
  | c :: cs => if c = quote then some (word, cs) else if c = '\\' then none else quotedPart quote (c :: word) cs

/-- Split from within a word, whose characters so far are given last one first. -/
def splitFrom (word : List Char) : List Char → Nat → Except Failure (List String)
  | [], _ => .ok [String.ofList word.reverse]
  | _, 0 => .ok [String.ofList word.reverse]
  | '\\' :: cs, fuel + 1 =>
    match cs with
    | [] => .ok [String.ofList word.reverse]
    | c :: cs => splitFrom (c :: word) cs fuel
  | c :: cs, fuel + 1 =>
    if isBlank c then do
      return String.ofList word.reverse :: (← splitFrom [] (cs.dropWhile isBlank) fuel)
    else if c = '\'' || c = '"' then
      match quotedPart c word cs with
      | some (word, cs) => splitFrom word cs fuel
      | none => .error (.value ("bad string (mismatched " ++ String.ofList [c] ++ " quotes?)"))
    else splitFrom (c :: word) cs fuel

def splitWords (s : String) : Except Failure (List String) :=
  let cs := ((s.toList.dropWhile isBlank).reverse.dropWhile isBlank).reverse
  if cs.isEmpty then .ok [] else splitFrom [] cs cs.length

end ZstCodec.Packaging
