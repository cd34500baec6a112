import Folio.Json.Basic
/-!
# TOML tables

A document under construction. What a table may still take depends on how it came about: by its own
header, by being passed through on the way to another header, or by a dotted key.
-/

namespace Folio.Toml

inductive Origin where
  /-- By a header of its own. -/
  | header
  /-- On the way to the table of a header. -/
  | passing
  /-- By a dotted key. -/
  | dotted
deriving DecidableEq, Repr

inductive Item where
  | value (value : Json)
  | table (origin : Origin) (entries : List (String × Item))
  /-- An array of tables, given by headers, of which the last one is open. Those before it are kept
  in reverse. -/
  | tables (earlier : List (List (String × Item))) (last : List (String × Item))
deriving Repr, Inhabited

abbrev Table := Fields Item

namespace Table

/-- Changes the table at a path, making the tables on the way that are not there. In an array of
tables the way goes through the last one. A dotted key does not go through tables that have a header
of their own. -/
def editAt (made : Origin) (act : Origin → Table → Option Table) :
    List String → Origin → Table → Option Table
  | [], origin, table => act origin table
  | key :: path, _, table =>
    match table.get? key with
    | none => do
      let inner ← editAt made act path made []
      return table.set key (.table made inner)
    | some (.value _) => none
    | some (.tables earlier last) => do
      let inner ← editAt made act path .header last
      return table.set key (.tables earlier inner)
    | some (.table origin inner) =>
      if made = .dotted ∧ origin = .header then none
      else do
        let inner ← editAt made act path origin inner
        return table.set key (.table origin inner)

/-- Opens the table of a header, which may have been passed through but not defined. -/
def openTable (key : String) (table : Table) : Option Table :=
  match table.get? key with
  | none => some (table.set key (.table .header []))
  | some (.table .passing inner) => some (table.set key (.table .header inner))
  | some _ => none

/-- Opens a further table of an array. -/
def openItem (key : String) (table : Table) : Option Table :=
  match table.get? key with
  | none => some (table.set key (.tables [] []))
  | some (.tables earlier last) => some (table.set key (.tables (last :: earlier) []))
  | some _ => none

/-- Binds a key, which must be free, in a table reached by a dotted key if `inDotted`. -/
def bind (key : String) (value : Json) (inDotted : Bool) (origin : Origin) (table : Table) :
    Option Table :=
  if decide (origin = .dotted) != inDotted || (table.get? key).isSome then none
  else some (table.set key (.value value))

/-- Binds a dotted key in a table. -/
def assign (path : List String) (value : Json) (origin : Origin) (table : Table) : Option Table :=
  match path.getLast? with
  | none => none
  | some key =>
    editAt .dotted (bind key value !path.dropLast.isEmpty) path.dropLast origin table

end Table

mutual

/-- The value of an item. -/
def Item.toJson : Item → Json
  | .value value => value
  | .table _ entries => .object (entriesToJson entries)
  | .tables earlier last => .array (tablesToJson earlier [.object (entriesToJson last)])

def entriesToJson : List (String × Item) → List (String × Json)
  | [] => []
  | (key, item) :: rest => (key, item.toJson) :: entriesToJson rest

/-- The values of tables in reverse, before others. -/
def tablesToJson : List (List (String × Item)) → List Json → List Json
  | [], values => values
  | table :: rest, values => tablesToJson rest (.object (entriesToJson table) :: values)

end

end Folio.Toml
