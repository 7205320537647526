/-! # Arguments of a command line

A grammar lists options; everything else are words, of which there has to be at least one.

* **Names.** Long names may be cut short as long as only one option starts so. A value follows as an argument, after a
  sign of equality, or, behind a short name, directly.
* **Words** stand in one run.
* **A double dash** ends the options.
* **Negative numbers** and arguments with a blank are words, though they start with a dash. -/

namespace ZstCodec.CommandLine

/-- What an option takes. -/
inductive Takes where
  | nothing
  | number
  | oneOf (choices : List String)
  | help
  deriving DecidableEq, Repr

structure OptionSpec where
  names : List String
  takes : Takes
  deriving DecidableEq, Repr

def OptionSpec.key (o : OptionSpec) : String := o.names.getLastD ""

def OptionSpec.takesValue (o : OptionSpec) : Bool :=
  match o.takes with
  | .number | .oneOf _ => true
  | _ => false

/-- Why reading arguments ends before its end. -/
inductive Stop where
  | help
  | wrong
  deriving DecidableEq, Repr

/-- The value of an option. -/
inductive Given where
  | set
  | number (n : Int)
  | text (s : String)
  deriving DecidableEq, Repr

/-! ### Numbers -/

def digitsValue (n : Nat) : List Char → Option Nat
  | [] => some n
  | '_' :: c :: cs => if c.isDigit then digitsValue (10 * n + (c.toNat - 48)) cs else none
  | c :: cs => if c.isDigit then digitsValue (10 * n + (c.toNat - 48)) cs else none

def natural? : List Char → Option Nat
  | [] => none
  | c :: cs => if c.isDigit then digitsValue (c.toNat - 48) cs else none

def isBlank (c : Char) : Bool := c = ' ' || ('\t' ≤ c && c ≤ '\r')

def integer? (s : String) : Option Int :=
  let cs := ((s.toList.dropWhile isBlank).reverse.dropWhile isBlank).reverse
  match cs with
  | '-' :: cs => (natural? cs).map fun n => -(n : Int)
  | '+' :: cs => (natural? cs).map fun n => (n : Int)
  | cs => (natural? cs).map fun n => (n : Int)

def looksNegative (s : String) : Bool :=
  match s.toList with
  | '-' :: cs =>
    let whole := cs.takeWhile Char.isDigit
    match cs.dropWhile Char.isDigit with
    | [] => ! whole.isEmpty
    | '.' :: rest => ! rest.isEmpty && rest.all Char.isDigit
    | _ => false
  | _ => false

/-! ### Telling options from words -/

inductive Token where
  | option (o : OptionSpec) (name : String) (explicit : Option String)
  | unknown
  | word (s : String)
  | dashes
  deriving DecidableEq, Repr

def splitValue (s : String) : String × Option String :=
  let cs := s.toList
  match cs.dropWhile (· ≠ '=') with
  | [] => (s, none)
  | _ :: value => (String.ofList (cs.takeWhile (· ≠ '=')), some (String.ofList value))

def named (grammar : List OptionSpec) : List (String × OptionSpec) := grammar.flatMap fun o => o.names.map (·, o)

def candidates (grammar : List OptionSpec) (s : String) : List (OptionSpec × String × Option String) :=
  if s.startsWith "--" then
    let (start, value) := splitValue s
    (named grammar).filterMap fun (name, o) => if name.startsWith start then some (o, name, value) else none
  else
    let short := String.ofList (s.toList.take 2)
    let rest := String.ofList (s.toList.drop 2)
    (named grammar).filterMap fun (name, o) =>
      if name = short then some (o, name, some rest)
      else if name.startsWith s then some (o, name, none)
      else none

def classify (grammar : List OptionSpec) (s : String) : Except Stop Token :=
  if ! s.startsWith "-" then .ok (.word s)
  else match (named grammar).lookup s with
    | some o => .ok (.option o s none)
    | none =>
      if s = "-" then .ok (.word s)
      else
        let (name, value) := splitValue s
        match value, (named grammar).lookup name with
        | some v, some o => .ok (.option o name (some v))
        | _, _ => match candidates grammar s with
          | [(o, name, value)] => .ok (.option o name value)
          | _ :: _ => .error .wrong
          | [] => if looksNegative s || s.contains ' ' then .ok (.word s) else .ok .unknown

def classifyAll (grammar : List OptionSpec) : List String → Except Stop (List Token)
  | [] => .ok []
  | "--" :: rest => .ok (.dashes :: rest.map .word)
  | s :: rest => do return (← classify grammar s) :: (← classifyAll grammar rest)

/-! ### Reading -/

structure Parsed where
  options : List (String × Given) := []
  words : Option (List String) := none
  extras : Bool := false
  deriving DecidableEq, Repr

def Token.isOption : Token → Bool
  | .option .. | .unknown => true
  | _ => false

def valueOf (o : OptionSpec) (s : String) : Except Stop Given :=
  match o.takes with
  | .number => match integer? s with
    | some n => .ok (.number n)
    | none => .error .wrong
  | .oneOf choices => if choices.contains s then .ok (.text s) else .error .wrong
  | _ => .error .wrong

/-- Short options written together: the first one, and the text of the others. -/
def together (grammar : List OptionSpec) (o : OptionSpec) (name : String) (rest : List Char) : Except Stop Unit :=
  if name.startsWith "--" then .error .wrong
  else match rest with
    | [] => .error .wrong
    | c :: cs => match (named grammar).lookup (String.ofList ['-', c]) with
      | none => .error .wrong
      | some next =>
        -- what comes first is what is done first
        if next.takesValue || cs.isEmpty then (if o.takes = .help then .error .help else .error .wrong)
        else together grammar o name cs

def wordsOf (run : List Token) : List String :=
  run.filterMap fun
    | .word s => some s
    | _ => none

def Parsed.addWords (p : Parsed) (run : List Token) : Parsed :=
  let words := wordsOf run
  if p.words.isSome || words.isEmpty then { p with extras := true } else { p with words := some words }

/-- Read tokens; every step takes at least one, so as many steps as tokens are enough. -/
def readTokens (grammar : List OptionSpec) (p : Parsed) : List Token → Nat → Except Stop Parsed
  | [], _ => .ok p
  | _, 0 => .ok p
  | .unknown :: rest, fuel + 1 => readTokens grammar { p with extras := true } rest fuel
  | .option o name explicit :: rest, fuel + 1 => do
    let add (g : Given) : Parsed := { p with options := (o.key, g) :: p.options }
    if o.takesValue then
      match explicit, rest with
      | some s, rest => readTokens grammar (add (← valueOf o s)) rest fuel
      | none, .word s :: rest => readTokens grammar (add (← valueOf o s)) rest fuel
      | none, _ => throw .wrong
    else match explicit with
      | some s =>
        together grammar o name s.toList
        throw .wrong
      | none => if o.takes = .help then throw .help else readTokens grammar (add .set) rest fuel
  | t :: rest, fuel + 1 =>
    let run := (t :: rest).takeWhile fun t => ! t.isOption
    readTokens grammar (p.addWords run) ((t :: rest).dropWhile fun t => ! t.isOption) fuel

def parse (grammar : List OptionSpec) (args : List String) : Except Stop Parsed := do
  let tokens ← classifyAll grammar args
  let p ← readTokens grammar {} tokens tokens.length
  if p.words.isNone || p.extras then throw .wrong
  return p

namespace Parsed

def has (p : Parsed) (key : String) : Bool := (p.options.lookup key).isSome

def number? (p : Parsed) (key : String) : Option Int :=
  match p.options.lookup key with
  | some (.number n) => some n
  | _ => none

def text? (p : Parsed) (key : String) : Option String :=
  match p.options.lookup key with
  | some (.text s) => some s
  | _ => none

end Parsed

end ZstCodec.CommandLine
