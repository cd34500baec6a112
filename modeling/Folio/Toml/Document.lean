import Folio.Toml.Moment
import Folio.Toml.Number
import Folio.Toml.Quoted
import Folio.Toml.Table
/-!
# TOML documents

Keys, values and statements, and the object that a document stands for. A date or time is an object
with a single field that holds its text.
-/

namespace Folio.Toml

open Reader

/-- Arrays and inline tables may be nested this deep, and keys may have this many parts. -/
def maxDepth : Nat := 79

/-- The key that the text of a date or time is held under. -/
def momentKey : String := "$__toml_private_datetime"

def isBareKey (c : Char) : Bool := c.isAlphanum || c = '_' || c = '-'

def simpleKey : Reader String :=
  oneLineString <|> (String.ofList <$> takeWhile1 isBareKey)

/-- A key of one or more parts with dots between them. -/
def dottedKey : Reader (List String) := do
  let first ← simpleKey
  let rest ← many (do
    skipIndent
    char '.'
    skipIndent
    simpleKey)
  if maxDepth ≤ rest.length then failure else return first :: rest

def comment : Reader Unit := do
  char '#'
  let _ ← takeWhile isPlain

/-- Space, line breaks and comments between the items of an array. -/
def skipLoose : Reader Unit := do
  let _ ← many (lineBreak <|> comment <|> (do let _ ← satisfy isIndent))

/-- An array after its opening bracket. A comma may follow the last item. -/
def array (value : Reader Json) : Reader Json := do
  skipLoose
  let items ← (do
      let first ← value
      let rest ← many (do
        skipLoose
        char ','
        skipLoose
        value)
      skipLoose
      let _ ← optional (char ',')
      return first :: rest)
    <|> pure []
  skipLoose
  char ']'
  return .array items

def keyValue (value : Reader Json) : Reader (List String × Json) := do
  let path ← dottedKey
  skipIndent
  char '='
  skipIndent
  return (path, ← value)

/-- An inline table after its opening brace. -/
def inlineTable (value : Reader Json) : Reader Json := do
  skipIndent
  let pairs ← (do
      let first ← keyValue value
      let rest ← many (do
        skipIndent
        char ','
        skipIndent
        keyValue value)
      return first :: rest)
    <|> pure []
  skipIndent
  char '}'
  let table ←
    (pairs.foldlM (fun table pair => Table.assign pair.1 pair.2 .header table) [] : Option Table)
  return .object (entriesToJson table)

def boolean : Reader Json :=
  (do
    chars ['t', 'r', 'u', 'e']
    return .bool true)
  <|> (do
    chars ['f', 'a', 'l', 's', 'e']
    return .bool false)

def momentValue : Reader Json := do
  return .object [(momentKey, .string (← moment))]

/-- A value with at most `depth` arrays and inline tables inside one another. -/
def value (depth : Nat) : Reader Json := do
  match ← peek? with
  | some '[' =>
    match depth with
    | 0 => failure
    | depth + 1 =>
      char '['
      array (value depth)
  | some '{' =>
    match depth with
    | 0 => failure
    | depth + 1 =>
      char '{'
      inlineTable (value depth)
  | _ => (Json.string <$> anyString) <|> boolean <|> momentValue <|> number

inductive Statement where
  | table (path : List String)
  | item (path : List String)
  | pair (path : List String) (value : Json)

def header : Reader Statement :=
  (do
    chars ['[', '[']
    skipIndent
    let path ← dottedKey
    skipIndent
    chars [']', ']']
    return .item path)
  <|> (do
    char '['
    skipIndent
    let path ← dottedKey
    skipIndent
    char ']'
    return .table path)

/-- A line of a document, without its end: blank or a statement, and perhaps a comment. -/
def line : Reader (Option Statement) := do
  skipIndent
  let statement ← optional (header <|> (do
    let (path, value) ← keyValue (value maxDepth)
    return .pair path value))
  skipIndent
  let _ ← optional comment
  return statement

/-- The lines of a document. -/
def lines : Reader (List (Option Statement)) := do
  let full ← many (do
    let statement ← line
    lineBreak
    return statement)
  return full ++ [← line]

/-- A document up to some statement: its table, and the path of the header in force. -/
structure Progress where
  header : List String := []
  table : Table := []

/-- Adds a statement to a document. -/
def Progress.add (progress : Progress) : Statement → Option Progress
  | .table path => do
    let key ← path.getLast?
    let table ← Table.editAt .passing (fun _ => Table.openTable key) path.dropLast .header
        progress.table
    return ⟨path, table⟩
  | .item path => do
    let key ← path.getLast?
    let table ← Table.editAt .passing (fun _ => Table.openItem key) path.dropLast .header progress.table
    return ⟨path, table⟩
  | .pair path value => do
    let table ← Table.editAt .passing (Table.assign path value) progress.header .header progress.table
    return ⟨progress.header, table⟩

/-- The fields of a document; none if it is malformed. -/
def read? (text : String) : Option Fields := do
  let chars := match text.toList with
    | '\uFEFF' :: rest => rest
    | chars => chars
  let statements ← readAll? lines chars
  let progress ← (statements.filterMap id).foldlM Progress.add {}
  return entriesToJson progress.table

end Folio.Toml
