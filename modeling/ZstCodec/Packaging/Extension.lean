import ZstCodec.Packaging.Paths
import ZstCodec.Packaging.Words
import ZstCodec.Session.Value

/-! # Extension modules

How the native extensions are built: sources, directories of headers, and what the compiler is told. Paths are relative
to where the build is started. -/

namespace ZstCodec.Packaging

open Session

structure Extension where
  name : String
  sources : List String := []
  includeDirs : List String := []
  compileArgs : List String := []
  libraries : List String := []
  depends : List String := []
  deriving DecidableEq, Repr

/-- Variables of the environment. -/
abbrev Environment := List (String × String)

def sourceDir : String := "c-ext"

def sourceFiles : List String := [
  "backend_c.c", "bufferutil.c", "compressionchunker.c", "compressiondict.c", "compressionparams.c",
  "compressionreader.c", "compressionwriter.c", "compressobj.c", "compressor.c", "compressoriterator.c", "constants.c",
  "decompressionreader.c", "decompressionwriter.c", "decompressobj.c", "decompressor.c", "decompressoriterator.c",
  "frameparams.c", "python-zstandard.h", "pythoncapi_compat.h"]

/-- How the native extension is asked for. -/
structure NativeRequest where
  name : String := "zstandard.backend_c"
  legacy : Bool := false
  system : Bool := false
  warningsAsErrors : Bool := false
  /-- The directory from which the build is started, below that of the package. -/
  below : List String := []
  deriving DecidableEq, Repr

def NativeRequest.compileArgs (r : NativeRequest) : List String :=
  (if r.system then ["-DZSTD_MULTITHREAD"]
    else ["-DZSTD_SINGLE_FILE", "-DZSTDLIB_VISIBLE=", "-DZDICTLIB_VISIBLE=", "-DZSTDERRORLIB_VISIBLE=",
      "-fvisibility=hidden"])
    ++ (if ! r.system && r.legacy then ["-DZSTD_LEGACY_SUPPORT=1"] else [])
    ++ (if r.warningsAsErrors then ["-Werror"] else [])

def NativeRequest.extension (r : NativeRequest) (env : Environment) : Except Failure Extension := do
  let place (parts : List String) : String := relative parts r.below
  let more ← match env.lookup "ZSTD_EXTRA_COMPILER_ARGS" with
    | some s => splitWords s
    | none => pure []
  return {
    name := r.name
    sources := [place [sourceDir, "backend_c.c"]]
    includeDirs := place [sourceDir] :: if r.system then [] else [place ["zstd"]]
    compileArgs := r.compileArgs ++ more
    libraries := if r.system then ["zstd"] else []
    depends := sourceFiles.map fun f => place [sourceDir, f] }

def nativeExtension (a : Args) (below : Option String) (env : Environment) : Except Failure Extension := do
  a.check [] ["support_legacy", "system_zstd", "name", "warnings_as_errors", "root"]
  let flag (name : String) : Bool := (a.getD name (.bool false)).truth
  let root := match a.getD "root" .none with
    | .text s => if s = "" then below.getD "" else s
    | _ => below.getD ""
  let r : NativeRequest := {
    legacy := flag "support_legacy"
    system := flag "system_zstd"
    warningsAsErrors := flag "warnings_as_errors"
    below := normalParts root }
  match a.getD "name" (.text r.name) with
  | .text name => NativeRequest.extension { r with name } env
  | _ =>
    let _ ← r.extension env
    throw .assertion

/-! ### The other extension -/

def cargoExtension (root : String) : Extension :=
  { name := "zstandard.backend_rust"
    depends := [joinPath root "Cargo.toml", joinPath (joinPath (joinPath root "rust-ext") "src") "lib.rs"] }

/-- A step of a build. -/
inductive BuildStep where
  | run (command : List String) (dir : String)
  | copy (source target : String)
  deriving DecidableEq, Repr

def libraryFile (platform name : String) : String := "lib" ++ name ++ if platform = "darwin" then ".dylib" else ".so"

def lastName (name : String) : String := (name.splitOn ".").getLastD ""

/-- The steps that build it in a directory: a command, then a copy to where the name says. -/
def cargoSteps (root buildDir platform : String) : List BuildStep :=
  let name := (cargoExtension root).name
  let library := joinPath (joinPath buildDir "release") (libraryFile platform (lastName name))
  [.run ["cargo", "build", "--release", "--target-dir", buildDir] root, .copy library ("dest/" ++ name)]

/-- The same, where the directory is first made absolute. -/
def cargoStepsNormal (root buildDir platform : String) : List BuildStep :=
  (cargoSteps root buildDir platform).map fun
    | .run command dir => .run (command.map fun s => if s = buildDir then pathOf (normalParts s) else s) dir
    | .copy source target => .copy (pathOf (normalParts source)) target

end ZstCodec.Packaging
