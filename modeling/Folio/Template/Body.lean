import Folio.Markup.References
import Folio.Template.Stage
/-!
# Template bodies

A source together with its tree, compiled on a stage with nothing in it. So of the partials that the
source includes, only those that lead out of the stage are found.
-/

namespace Folio

/-- A compiled template source. -/
structure Body where
  source : String
  nodes : List Markup.Node
  /-- The partials that were looked up in compiling. -/
  found : List (String × List Markup.Node) := []
deriving Inhabited

namespace Body

variable {host : Host}

def compile (store : Files.Store host) (source : String) : Except TemplateError Body := do
  let linked ← (Stage.fresh store).compile source
  return ⟨source, linked.nodes, linked.partials⟩

/-- The tree with the partials that were looked up in compiling. -/
def linked (body : Body) : Markup.Linked :=
  ⟨body.nodes, body.found⟩

/-- The names of the partials that the source references, in order of first appearance. -/
def references (body : Body) : List String :=
  Markup.references body.source

end Body

end Folio
