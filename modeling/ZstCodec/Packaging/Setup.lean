import ZstCodec.Packaging.Extension
import ZstCodec.Packaging.Version
import ZstCodec.Text.Encoding
import ZstCodec.Text.Newline

/-! # Configuration of the package

What is built follows from the arguments, the environment and the host. Flags are taken out of the arguments one by one,
in a fixed order. The package's version stands in a header. -/

namespace ZstCodec.Packaging

structure HostSystem where
  version : List Int := [3, 11, 6]
  implementation : String := "CPython"
  foreign : Option String := some "1.16.0"
  deriving DecidableEq, Repr

structure Package where
  name : String := "zstandard"
  version : String
  packages : List String := ["zstandard"]
  packageData : List (String × List String) := [("zstandard", ["__init__.pyi", "py.typed"])]
  requires : List String := []
  extras : List (String × List String)
  commands : List String := ["build_ext"]
  native : Option Extension
  others : List String
  deriving DecidableEq, Repr

/-- How configuring ends without a package. -/
inductive SetupError where
  | exit (code : Nat)
  | failed (e : Failure)

def numbersLess : List Int → List Int → Bool
  | [], [] => false
  | [], _ :: _ => true
  | _ :: _, [] => false
  | a :: as, b :: bs => a < b || (a = b && numbersLess as bs)

def minimumForeign (host : List Int) : String := if numbersLess (host.take 2) [3, 13] then "1.11" else "1.17"

def hasForeign (h : HostSystem) : Except Failure Bool :=
  match h.foreign with
  | none => .ok false
  | some "" => .error .noAttribute
  | some v => return ! (← versionLess (versionParts v) (versionParts (minimumForeign h.version)))

def takeFlag (name : String) (args : List String) : Bool × List String :=
  if args.contains name then (true, args.erase name) else (false, args)

def textLines (line : List Char) : List Char → List String
  | [] => if line.isEmpty then [] else [String.ofList line.reverse]
  | c :: cs => if c = '\n' then String.ofList (c :: line).reverse :: textLines [] cs else textLines (c :: line) cs

def blankWords (word : List Char) : List Char → List String
  | [] => if word.isEmpty then [] else [String.ofList word.reverse]
  | c :: cs =>
    if isBlank c || ('\x1c' ≤ c && c ≤ '\x1f') || c = '\u0085' || c = '\u00a0' then
      (if word.isEmpty then [] else [String.ofList word.reverse]) ++ blankWords [] cs
    else blankWords (c :: word) cs

def packageVersion : String := "0.24.0.dev0"

/-- The version that a header tells: the third word of its line. -/
def versionIn (header : ByteArray) : Except Failure String := do
  let (cs, _) ← Text.Encoding.utf8.decode .strict true header
  let lines := textLines [] (Text.Newline.feeds cs)
  let version ← match lines.find? (·.startsWith "#define PYTHON_ZSTANDARD_VERSION") with
    | none => pure ""
    | some line => match blankWords [] line.toList with
      | _ :: _ :: word :: _ => pure (String.ofList (word.toList.drop 1).dropLast)
      | _ => throw .indexOutOfRange
  if version = "" then throw (.plain "could not resolve package version; this should never happen")
  return version

def configure (args : List String) (env : Environment) (h : HostSystem) (header : Option ByteArray) :
    Except SetupError Package := do
  let orFail {α : Type} (a : Except Failure α) : Except SetupError α := a.mapError .failed
  if numbersLess (h.version.take 2) [3, 8] then throw (.exit 1)
  let foreign ← orFail (hasForeign h)
  let strictEnv := (env.lookup "ZSTD_WARNINGS_AS_ERRORS").getD "" ≠ ""
  let (legacy, args) := takeFlag "--legacy" args
  let (system, args) := takeFlag "--system-zstd" args
  -- this flag is looked for by one name and taken out by another
  let strict := args.contains "--warnings-as-errors"
  if strict && ! args.contains "--warning-as-errors" then throw (.failed .notInList)
  let args := if strict then args.erase "--warning-as-errors" else args
  let (noNative, args) := takeFlag "--no-c-backend" args
  let (noForeign, args) := takeFlag "--no-cffi-backend" args
  let (cargo, _) := takeFlag "--rust-backend" args
  let request : NativeRequest := { legacy, system, warningsAsErrors := strictEnv || strict }
  let native ← if noNative || h.implementation = "PyPy" then pure none else some <$> orFail (request.extension env)
  let version ← match header with
    | some b => orFail (versionIn b)
    | none => pure packageVersion
  let requirement := "cffi>=" ++ minimumForeign h.version
  return {
    version
    extras := [("cffi", [requirement]), (":platform_python_implementation == \"PyPy\"", [requirement])]
    native
    others := (if cargo then ["zstandard.backend_rust"] else []) ++ if ! noForeign && foreign then ["zstandard._cffi"] else [] }

end ZstCodec.Packaging
