import Folio.Markup.Node
import Folio.Markup.Scope
import Folio.Markup.Sheet
/-!
# Rendering

Writes a template tree for a scope. Partials come from a function that gives their trees by name;
how deeply they may include one another is bounded, and exceeding the bound is an outcome of its
own.
-/

namespace Folio.Markup

/-- Why a rendering does not end with a text. -/
inductive Halt where
  /-- A value tag met a boolean, an array or an object. -/
  | unwritable
  /-- Partials include one another more deeply than the bound. -/
  | tooDeep
deriving DecidableEq, Repr

/-- Writes a partial, with the indent that its lines take, for a scope. -/
abbrev Inclusion := (name indent : String) → Scope → Sheet → Except Halt Sheet

/-- The text of a tag with a value: the value indents only its first line. -/
def writeValue (indent : String) (escaped : Bool) (value : Option Json) (sheet : Sheet) :
    Except Halt Sheet :=
  match value with
  | none => .ok sheet
  | some value =>
    match written? value with
    | none => .error .unwritable
    | some text => .ok ((sheet.writeIndent indent).write (if escaped then escape text else text))

/-- The scopes that the body of a section is written in, one after the other. -/
def blockScopes (scope : Scope) (path : Path) (inverted : Bool) : List Scope :=
  let value := scope.resolve path
  if inverted then (if isAbsent value then [scope] else []) else sectionScopes scope value

mutual

/-- Writes a node. -/
def renderNode (insert : Inclusion) (indent : String) :
    Node → Scope → Sheet → Except Halt Sheet
  | .text text, _, sheet => .ok (sheet.writeLines indent text)
  | .value path escaped, scope, sheet => writeValue indent escaped (scope.resolve path) sheet
  | .block path inverted body, scope, sheet =>
    (blockScopes scope path inverted).foldlM
      (fun sheet scope => renderNodes insert indent body scope sheet) sheet
  | .inclusion name extra, scope, sheet => insert name (indent ++ extra) scope sheet

/-- Writes nodes one after the other. -/
def renderNodes (insert : Inclusion) (indent : String) :
    List Node → Scope → Sheet → Except Halt Sheet
  | [], _, sheet => .ok sheet
  | node :: rest, scope, sheet => do
    renderNodes insert indent rest scope (← renderNode insert indent node scope sheet)

end

/-- Writes a partial whose own partials are nested at most `depth` deep. -/
def renderPartial (find : String → List Node) : (depth : Nat) → Inclusion
  | 0, _, _, _, _ => .error .tooDeep
  | depth + 1, name, indent, scope, sheet =>
    renderNodes (renderPartial find depth) indent (find name) scope sheet

/-- The text of a tree for a context. -/
def render (find : String → List Node) (depth : Nat) (nodes : List Node) (context : Fields) :
    Except Halt String :=
  (renderNodes (renderPartial find depth) "" nodes [.object context] {}).map Sheet.text

/-- A tree with the trees of the partials that it includes, those of partials too. -/
structure Linked where
  nodes : List Node
  partials : List (String × List Node) := []
deriving Inhabited

namespace Linked

/-- The tree of a partial. One that is not there is empty. -/
def find (linked : Linked) (name : String) : List Node :=
  (linked.partials.lookup name).getD []

def keys (linked : Linked) : List String :=
  ((linked.nodes :: linked.partials.map Prod.snd).flatMap Node.keys).eraseDups

/-- A depth of inclusion that only partials without end exceed. What a partial does depends on the
innermost value and on what each key is bound to in the scope, so on one of so many choices among
the values of the context; a partial that includes itself under the same choice never ends. -/
def depthBound (linked : Linked) (context : Fields) : Nat :=
  linked.partials.length * Nat.pow ((Json.object context).size + 1) (linked.keys.length + 1) + 1

def render (linked : Linked) (context : Fields) : Except Halt String :=
  Markup.render linked.find (linked.depthBound context) linked.nodes context

end Linked

end Folio.Markup
