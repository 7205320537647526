/-! # Paths

Paths are lists of parts with a slash between them. -/

namespace ZstCodec.Packaging

def joinPath (a b : String) : String :=
  if b.startsWith "/" || a = "" then b
  else if a.endsWith "/" then a ++ b
  else a ++ "/" ++ b

/-- The parts of a path, where one dot stands for nothing and two for the part before. -/
def normalParts (path : String) : List String :=
  ((path.splitOn "/").foldl
    (fun (parts : List String) s =>
      if s = "" || s = "." then parts
      else if s = ".." then (match parts with | [] => [s] | p :: rest => if p = ".." then s :: parts else rest)
      else s :: parts)
    []).reverse

def pathOf (parts : List String) : String := if parts.isEmpty then "." else "/".intercalate parts

def dropCommon : List String → List String → List String × List String
  | a :: as, b :: bs => if a = b then dropCommon as bs else (a :: as, b :: bs)
  | as, bs => (as, bs)

def relative (target start : List String) : String :=
  let (target, start) := dropCommon target start
  pathOf (start.map (fun _ => "..") ++ target)

end ZstCodec.Packaging
