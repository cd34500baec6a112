import Folio.Decimal.Shortest
import Folio.Json.Basic
import Folio.Markup.Tag
/-!
# Scopes

The values that a template sees at one place: those entered by sections, innermost first, above the
context. A number counts as the text that it is written as.
-/

namespace Folio.Markup

/-- Innermost value first. -/
abbrev Scope := List Json

namespace Scope

def find? (scope : Scope) (key : String) : Option Json :=
  scope.findSome? (Json.field? key)

/-- The value at a path. The first part is looked for in the whole scope, the others only inside
the value found for it; the empty path is the innermost value. -/
def resolve (scope : Scope) : Path → Option Json
  | [] => scope.head?
  | first :: rest =>
    (scope.find? first).bind fun value => rest.foldlM (fun value key => value.field? key) value

end Scope

/-- What a value tag writes for a value, or none if the value cannot be written. -/
def written? : Json → Option String
  | .null => some ""
  | .string text => some text
  | .int number => some (toString number)
  | .float number => some number.text
  | _ => none

/-- The scopes in which a section is rendered for a value: none for what counts as false, the same
scope for true, and one that starts with each item of an array or with the value itself. -/
def sectionScopes (scope : Scope) : Option Json → List Scope
  | some (.bool true) => [scope]
  | some (.string text) => if text.isEmpty then [] else [.string text :: scope]
  | some (.int number) => [.int number :: scope]
  | some (.float number) => [.float number :: scope]
  | some (.array items) => items.map (· :: scope)
  | some (.object fields) => [.object fields :: scope]
  | some .null | some (.bool false) | none => []

/-- Whether an inverted section is rendered for a value. The empty text does not count. -/
def isAbsent : Option Json → Bool
  | none | some .null | some (.bool false) | some (.array []) => true
  | _ => false

def escapeChar : Char → List Char
  | '<' => ['&', 'l', 't', ';']
  | '>' => ['&', 'g', 't', ';']
  | '&' => ['&', 'a', 'm', 'p', ';']
  | '"' => ['&', 'q', 'u', 'o', 't', ';']
  | '\'' => ['&', '#', '3', '9', ';']
  | c => [c]

def escape (text : String) : String :=
  String.ofList (text.toList.flatMap escapeChar)

end Folio.Markup
