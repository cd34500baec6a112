import Folio.Files.Access
import Folio.Json.Reader
import Folio.Logged
/-!
# Render data

The data file beside a template: variables for rendering, of which the key `render` holds settings
for the template itself.
-/

namespace Folio

/-- Whether an extension can be put after a name and a dot without leading elsewhere. -/
def isPlainExtension (extension : String) : Bool :=
  match extension.toList with
  | [] => false
  | first :: rest => first != '.' && (first :: rest).all fun c => c != '/' && c != '\\'

structure RenderSettings where
  layout : Option String := none
  extension : Option String := none
deriving DecidableEq, Repr, Inhabited

namespace RenderSettings

/-- A setting under the key `render`, unless it is empty or no string. -/
def declared? (vars : Fields) (key : String) : Option String := do
  let text ← (← (← vars.get? "render").field? key).string?
  if text.isEmpty then none else some text

/-- The settings of render data. An extension that is not plain counts as absent. -/
def ofVars (vars : Fields) : RenderSettings where
  layout := declared? vars "layout"
  extension := (declared? vars "extension").filter isPlainExtension

def journal (vars : Fields) : Journal :=
  match declared? vars "extension" with
  | some extension =>
    if isPlainExtension extension then []
    else .warn ("ignoring render extension '" ++ extension ++ "': not a plain file extension")
  | none => []

end RenderSettings

structure RenderData where
  settings : RenderSettings
  /-- Every key of the data, `render` included. -/
  vars : Fields
deriving Inhabited

namespace RenderData

def ofVars (vars : Fields) : RenderData := ⟨.ofVars vars, vars⟩

/-- The data in a file; none if there is no such file. -/
def load {host : Host} (store : Files.Store host) (path : String) : Logged (Option RenderData) :=
  if store.hasFile path then
    match store.readText path with
    | .error fault => .fail (.io (.reading path) fault)
    | .ok text =>
      match Json.read text with
      | .error fault => .fail (.dataParse path (fault.message text.toList))
      | .ok (.object vars) => ⟨.ok (some (ofVars vars)), RenderSettings.journal vars⟩
      | .ok _ => .fail (.dataNotObject path)
  else pure none

end RenderData

/-- The variables a template is rendered with: global ones, under those of its own data. Values are
replaced whole. -/
def buildContext (globals : Fields) (data : Option RenderData) : Fields :=
  match data with
  | none => globals
  | some data => globals.overlay data.vars

end Folio
