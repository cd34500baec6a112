import Folio.Text.Search
/-!
# Paths

Paths as text, segments separated by slashes. Nothing is normalized: joining and cutting keep the
text that is there. Empty segments and single dots name nothing of their own, except a dot at the
start of a relative path.
-/

namespace Folio.Files.Path

/-- The segments of a path, empty ones included. The empty path has none. -/
def segments (path : String) : List String :=
  if path.isEmpty then [] else (Text.splitOn '/' path.toList).map String.ofList

def ofSegments (segments : List String) : String :=
  String.intercalate "/" segments

/-- A path inside a folder. An absolute path stands for itself. -/
def join (folder path : String) : String :=
  if path.startsWith "/" then path
  else if folder.isEmpty || folder.endsWith "/" then folder ++ path
  else folder ++ "/" ++ path

def isIdle (segment : String) : Bool :=
  segment.isEmpty || segment = "."

/-- The segments without the idle ones at the end. The first segment of a path stays if it is a dot
or begins an absolute path. -/
def dropIdle (segments : List String) : List String :=
  let kept := (segments.reverse.dropWhile isIdle).reverse
  match kept, segments with
  | [], "." :: _ => ["."]
  | [], "" :: _ => [""]
  | kept, _ => kept

def parent? (path : String) : Option String :=
  match (dropIdle (segments path)).reverse with
  | [] => none
  | [""] => none
  | _ :: before =>
    match dropIdle before.reverse with
    | [""] => some "/"
    | kept => some (ofSegments kept)

/-- The last component, unless it is a dot or two. -/
def fileName? (path : String) : Option String :=
  match (dropIdle (segments path)).getLast? with
  | none => none
  | some last => if last.isEmpty || last = "." || last = ".." then none else some last

/-- The part of a file name before its last dot; a dot at the start of the name does not count. -/
def stem (name : String) : String :=
  let reversed := name.toList.reverse
  match reversed.dropWhile (· != '.') with
  | [] => name
  | [_] => name
  | _ :: before => String.ofList before.reverse

/-- The path with the extension of its last component replaced, or added if it has none. A path
without a file name stays as it is. -/
def withExtension (path extension : String) : String :=
  match fileName? path with
  | none => path
  | some name =>
    let before := (dropIdle (segments path)).dropLast
    ofSegments (before ++ [stem name ++ "." ++ extension])

def sibling (path name : String) : String :=
  join ((parent? path).getD "") name

def endsIn (path name : String) : Bool :=
  (dropIdle (segments path)).getLast? = some name

end Folio.Files.Path
