import Folio.Files.Access
import Folio.Journal
import Folio.Site.Matcher
import Folio.Template.Basic
/-!
# Discovery

The template files below a folder, depth first with the names of each folder in byte order.
-/

namespace Folio

inductive Found where
  | template (file : TemplateFile)
  /-- Left out because its own name is no text. -/
  | unnamed (path : String)
  /-- Left out because the name of a folder around it is no text. -/
  | misplaced (path : String)
  /-- A folder whose path is too long to look into it. -/
  | unopened (path : String)
deriving DecidableEq, Repr

namespace Found

def journal : Found → Journal
  | template file => .debug ("discovered " ++ file.path ++ " as '" ++ file.name ++ "'")
  | unnamed path => .debug ("skipping " ++ path ++ ": file name is not UTF-8")
  | misplaced path => .debug ("skipping " ++ path ++ ": folder name is not UTF-8")
  | unopened _ => []

def file? : Found → Except SiteError (Option TemplateFile)
  | template file => .ok (some file)
  | unnamed _ | misplaced _ => .ok none
  | unopened path => .error (.io (.walking path) .nameTooLong)

end Found

def pathBelow (folder : String) (location : Files.Location) : String :=
  Files.Path.join folder ("/".intercalate (location.map Files.Name.shown))

/-- The length of that path in bytes. A name that is no text counts as it is and not as shown. -/
def pathSize (host : Host) (folder : String) (location : Files.Location) : Nat :=
  location.foldl (fun size name => size + name.length + 1)
    (Files.Route.size host (Files.Path.join folder "")) - 1

def canOpen (host : Host) (folder : String) (location : Files.Location) : Bool :=
  pathSize host folder location ≤ Files.maxPath

/-- What a file in a folder counts as; none if it is no template file. -/
def classify (folder : String) (matcher : Matcher) (location : Files.Location) : Option Found :=
  let path := pathBelow folder location
  match (location.getLast?).bind Files.Name.text? with
  | none => some (.unnamed path)
  | some fileName =>
    (matcher.strip? fileName).map fun stem =>
      match location.dropLast.mapM Files.Name.text? with
      | none => .misplaced path
      | some folders =>
        .template {
          path
          name := "/".intercalate (folders ++ [stem])
          dataPath := Files.Path.sibling path (stem ++ ".json")
        }

/-- What is come across at an entry below a folder, unless the way there is too long. -/
def visit (host : Host) (folder : String) (matcher : Matcher) (item : Files.Location × Files.Entry) :
    Option Found :=
  if !canOpen host folder item.1.dropLast then none
  else match item.2 with
    | .folder => if canOpen host folder item.1 then none else some (.unopened (pathBelow folder item.1))
    | .file _ => classify folder matcher item.1

/-- Everything come across below a folder; nothing if there is no such folder. -/
def discover {host : Host} (store : Files.Store host) (folder : String) (matcher : Matcher) :
    List Found :=
  match store.locate folder with
  | .error _ => []
  | .ok location =>
    if store.IsFolder location then (store.below location).filterMap (visit host folder matcher) else []

end Folio
