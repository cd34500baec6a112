import Folio.Files.Fault
import Folio.Files.Path
import Folio.Files.Store
/-!
# File access

Reading, writing and making folders by path. A path is followed name by name, a relative one from
the working folder, so of several faults the one met first is found.
-/

namespace Folio.Files

/-- A path as it is followed: where it starts, the names in it, two dots for the folder above, and
whether it must lead to a folder. -/
structure Route where
  start : Location
  names : List Name
  toFolder : Bool := false
deriving DecidableEq, Repr

def above : Name := Name.ofText ".."

namespace Route

def ofPath (host : Host) (path : String) : Route where
  start := if path.startsWith "/" then [] else host.here
  names := ((Path.segments path).filter (!Path.isIdle ·)).map Name.ofText
  toFolder := (Path.segments path).getLast?.any Path.isIdle

/-- The bytes of a path as the system is asked for it. -/
def size (host : Host) (path : String) : Nat :=
  (if path.startsWith "/" then 0 else host.lead) + path.utf8ByteSize

/-- The faults of a path that show before it is followed. -/
def check (host : Host) (path : String) : Except Fault Unit :=
  if path.isEmpty then .error .notFound
  else if '\x00' ∈ path.toList then .error .nulByte
  else if maxPath < size host path then .error .nameTooLong
  else .ok ()

end Route

namespace Store

variable {host : Host}

/-- Follows names from a location; all that are there exist. -/
def walk (store : Store host) (here : Location) : List Name → Except Fault Location
  | [] => .ok here
  | name :: rest =>
    if ¬ store.IsFolder here then .error .notFolder
    else if name = above then walk store here.dropLast rest
    else if maxName < name.length then .error .nameTooLong
    else if (store.get? (here ++ [name])).isSome then walk store (here ++ [name]) rest
    else .error .notFound

/-- Where a path leads: to something that is there, or to a free name in a folder. -/
inductive Spot (store : Store host) where
  | taken (location : Location)
  | free (folder : Location) (name : Name) (isFolder : store.IsFolder folder)
    (isFree : store.get? (folder ++ [name]) = none)

/-- Follows names from a location; the last of them need not be there. -/
def spot (store : Store host) (start : Location) (names : List Name) : Except Fault (Spot store) :=
  match names.getLast? with
  | none => .ok (.taken start)
  | some last => do
    let folder ← store.walk start names.dropLast
    if hf : store.IsFolder folder then
      if last = above then return .taken folder.dropLast
      else if maxName < last.length then .error .nameTooLong
      else if h : store.get? (folder ++ [last]) = none then return .free folder last hf h
      else return .taken (folder ++ [last])
    else .error .notFolder

/-- The location of what a path leads to. -/
def locate (store : Store host) (path : String) : Except Fault Location := do
  Route.check host path
  let route := Route.ofPath host path
  let location ← store.walk route.start route.names
  if route.toFolder ∧ ¬ store.IsFolder location then .error .notFolder else return location

def has (store : Store host) (path : String) : Bool :=
  (store.locate path).isOk

def hasFolder (store : Store host) (path : String) : Bool :=
  match store.locate path with
  | .ok location => store.IsFolder location
  | .error _ => false

def hasFile (store : Store host) (path : String) : Bool :=
  match store.locate path with
  | .ok location => ¬ store.IsFolder location
  | .error _ => false

/-- The bytes of a file. -/
def read (store : Store host) (path : String) : Except Fault ByteArray := do
  match store.get? (← store.locate path) with
  | some (.file content) => return content
  | _ => .error .isFolder

/-- The text of a file. -/
def readText (store : Store host) (path : String) : Except Fault String := do
  match String.fromUTF8? (← store.read path) with
  | some text => return text
  | none => .error .notText

/-- A free name taken by an entry. -/
def add (store : Store host) (folder : Location) (name : Name) (entry : Entry)
    (isFolder : store.IsFolder folder) (isFree : store.get? (folder ++ [name]) = none) : Store host :=
  store.put (folder ++ [name]) entry (by simp) (by simpa using isFolder) (by simp [isFree])

/-- Writes a file where names lead, over the one that is there. -/
def writeAt (store : Store host) (start : Location) (names : List Name) (content : ByteArray) :
    Except Fault (Store host) := do
  match ← store.spot start names with
  | .free folder name isFolder isFree => return store.add folder name (.file content) isFolder isFree
  | .taken location =>
    match h : store.get? location with
    | some (.file _) =>
      have hd := isFolder_dropLast h
      return store.put location (.file content) hd.1 hd.2 (by simp [h])
    | _ => .error .isFolder

def write (store : Store host) (path : String) (content : ByteArray) : Except Fault (Store host) := do
  Route.check host path
  let route := Route.ofPath host path
  if route.toFolder then
    let location ← store.walk route.start route.names
    .error (if store.IsFolder location then .isFolder else .notFolder)
  else store.writeAt route.start route.names content

/-- Makes one folder. -/
def makeFolder (store : Store host) (start : Location) (names : List Name) :
    Except Fault (Store host) := do
  match ← store.spot start names with
  | .free folder name isFolder isFree => return store.add folder name .folder isFolder isFree
  | .taken _ => .error .exists

/-- Whether names lead to a folder. -/
def leadsToFolder (store : Store host) (start : Location) (names : List Name) : Bool :=
  match store.walk start names with
  | .ok location => store.IsFolder location
  | .error _ => false

/-- Makes a folder, names in reverse, and first the folders it lies in if they are missing. Folders
made before a fault stay. -/
def makeFoldersAt (store : Store host) (start : Location) : List Name → Except Fault Unit × Store host
  | [] => (.ok (), store)
  | last :: before =>
    let names := (last :: before).reverse
    match store.makeFolder start names with
    | .ok made => (.ok (), made)
    | .error .notFound =>
      match makeFoldersAt store start before with
      | (.error fault, made) => (.error fault, made)
      | (.ok (), made) =>
        match made.makeFolder start names with
        | .ok made => (.ok (), made)
        | .error fault =>
          if made.leadsToFolder start names then (.ok (), made) else (.error fault, made)
    | .error fault =>
      if store.leadsToFolder start names then (.ok (), store) else (.error fault, store)

/-- Makes a folder and those it lies in. The empty path is the working folder. -/
def makeFolders (store : Store host) (path : String) : Except Fault Unit × Store host :=
  if '\x00' ∈ path.toList then (.error .nulByte, store)
  else if maxPath < Route.size host path then (.error .nameTooLong, store)
  else
    let route := Route.ofPath host path
    store.makeFoldersAt route.start route.names.reverse

end Store

end Folio.Files
