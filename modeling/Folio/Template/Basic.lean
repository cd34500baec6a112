import Folio.Template.Body
import Folio.Template.Data
/-!
# Templates

Layouts, partials and pages are all templates: a named body with the data that lies beside it.
-/

namespace Folio

/-- A template's file: where it is, the name it goes by, and where its data would be. -/
structure TemplateFile where
  path : String
  name : String
  dataPath : String
deriving DecidableEq, Repr, Inhabited

structure Template where
  name : String
  path : String
  body : Body
  data : Option RenderData
deriving Inhabited

namespace Template

def defaultExtension : String := "html"

/-- Reads and compiles a file, with its data if there is any. -/
def load {host : Host} (store : Files.Store host) (file : TemplateFile) : Logged Template := do
  let source ← match store.readText file.path with
    | .ok source => pure source
    | .error fault => .fail (.io (.reading file.path) fault)
  let body ← match Body.compile store source with
    | .ok body => pure body
    | .error cause => .fail (.templateCompile file.path cause)
  let data ← RenderData.load store file.dataPath
  return ⟨file.name, file.path, body, data⟩

def layout (template : Template) : Option String :=
  template.data.bind (·.settings.layout)

def extension (template : Template) : String :=
  (template.data.bind (·.settings.extension)).getD defaultExtension

def outputPath (template : Template) : String :=
  template.name ++ "." ++ template.extension

end Template

end Folio
