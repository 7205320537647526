import ZstCodec.Deflate.Read
import ZstCodec.Failure

/-! # Chunks of input

Chunks are read from files. A directory stands for all files below it in the order of their names, its own before those
of its directories. Files in directories that cannot be read are passed over, as are empty files. -/

namespace ZstCodec.Bench

/-- What stands at a path. -/
inductive Entry where
  | file (b : ByteArray)
  | dangling

/-- Files by the parts of their paths. -/
abbrev Tree := List (List String × Entry)

def pathParts (path : String) : List String :=
  ((path.splitOn "/").foldl
    (fun (parts : List String) s => if s = "" || s = "." then parts else if s = ".." then parts.drop 1 else s :: parts)
    []).reverse

namespace Tree

def ofFiles (files : List (String × Option ByteArray)) : Tree :=
  files.map fun (path, b) => (pathParts path, match b with | some b => .file b | none => .dangling)

def below : List String → List String → Option (List String)
  | [], rest => some rest
  | d :: dir, p :: path => if d = p then below dir path else none
  | _ :: _, [] => none

def isDir (t : Tree) (dir : List String) : Bool :=
  dir.isEmpty || t.any fun (path, _) => match below dir path with
    | some (_ :: _) => true
    | _ => false

def filesIn (t : Tree) (dir : List String) : List Entry :=
  let found := t.filterMap fun (path, e) => match below dir path with
    | some [name] => some (name, e)
    | _ => none
  (found.mergeSort fun a b => decide (a.1 ≤ b.1)).map (·.2)

def dirsIn (t : Tree) (dir : List String) : List String :=
  let found := t.filterMap fun (path, _) => match below dir path with
    | some (name :: _ :: _) => some name
    | _ => none
  (found.mergeSort fun a b => decide (a ≤ b)).eraseDups

def depth (t : Tree) : Nat := t.foldl (fun n (path, _) => max n path.length) 0

def walk (t : Tree) (dir : List String) : Nat → List Entry
  | 0 => t.filesIn dir
  | levels + 1 => t.filesIn dir ++ (t.dirsIn dir).flatMap fun name => walk t (dir ++ [name]) levels

def read (t : Tree) (path : String) : Except Failure ByteArray :=
  let parts := pathParts path
  match t.lookup parts with
  | some (.file b) => if path.endsWith "/" then .error .notDirectory else .ok b
  | some .dangling => .error .fileNotFound
  | none =>
    let throughFile := t.any fun (p, e) => match e, below p parts with
      | .file _, some (_ :: _) => true
      | _, _ => false
    if path ≠ "" && throughFile then .error .notDirectory else .error .fileNotFound

end Tree

/-- How files are cut into chunks. -/
structure ChunkRule where
  limit : Except Failure (Option Int)
  encoding : String
  size : Except Failure (Option Int)

def pieces (b : ByteArray) (n i : Nat) : Nat → List ByteArray
  | 0 => []
  | fuel + 1 => if b.size ≤ i then [] else slice b i (i + n) :: pieces b n (i + n) fuel

def cut (b : ByteArray) (size : Int) : Except Failure (List ByteArray) :=
  if size = 0 then .error .rangeStep else .ok (pieces b size.toNat 0 (if size < 0 then 0 else b.size))

def ChunkRule.chunksOf (rule : ChunkRule) (data : ByteArray) : Except Failure (List ByteArray) := do
  if data.size = 0 then return []
  let data ← match rule.encoding with
    | "raw" => pure data
    | "zlib" => Deflate.content data
    | other => throw (.plain ("unexpected chunk encoding: " ++ other))
  match ← rule.size with
  | none => return [data]
  | some n => cut data n

def ChunkRule.enough (rule : ChunkRule) (chunks : List ByteArray) : Except Failure Bool := do
  match ← rule.limit with
  | none => return false
  | some n => return n ≠ 0 && n ≤ chunks.length

def isDeviceFailure (e : Failure) : Bool :=
  match e.kind with
  | .device | .fileNotFound | .directory | .notDirectory => true
  | _ => false

/-- Add the chunks of files until there are enough; the answer tells whether there are. -/
def addFiles (rule : ChunkRule) (lenient : Bool) (chunks : List ByteArray) :
    List (Except Failure ByteArray) → Except Failure (List ByteArray × Bool)
  | [] => .ok (chunks, false)
  | file :: rest =>
    match file.bind rule.chunksOf with
    | .error e => if lenient && isDeviceFailure e then addFiles rule lenient chunks rest else .error e
    | .ok new => do
      let chunks := chunks ++ new
      if ← rule.enough chunks then return (chunks, true) else addFiles rule lenient chunks rest

def readChunks (t : Tree) (rule : ChunkRule) (chunks : List ByteArray) : List String → Except Failure (List ByteArray)
  | [] => .ok chunks
  | path :: rest => do
    let parts := pathParts path
    let (chunks, enough) ←
      if path ≠ "" && t.isDir parts then
        addFiles rule true chunks ((t.walk parts t.depth).map fun
          | .file b => .ok b
          | .dangling => .error .fileNotFound)
      else addFiles rule false chunks [t.read path]
    if enough then return chunks else readChunks t rule chunks rest

end ZstCodec.Bench
