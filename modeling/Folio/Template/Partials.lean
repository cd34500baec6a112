import Folio.Index
import Folio.Markup.Rendering
import Folio.Template.Body
/-!
# Partials

The bodies that partial tags refer to, by name, and rendering with them. For rendering they are
written to a stage: partial `name` to `<name>` with its extension replaced. So a name with a dot in
its last segment lands in another file than the one it is looked up in.
-/

namespace Folio

abbrev Partials := Index String Body

variable {host : Host}

namespace Partials

/-- The file that a partial is staged in. None for a name that leads to the staging folder itself:
its file is put beside that folder, by a name as random as the folder's. -/
def stagePath? (name : String) : Option String :=
  if !name.startsWith "/" && (Files.Path.segments name).all Files.Path.isIdle then none
  else some (Files.Path.withExtension name Stage.extension)

def stageOne (stage : Stage host) (name : String) (body : Body) : Except SiteError (Stage host) :=
  match stagePath? name with
  | none => .ok stage
  | some path =>
    let (made, stage) := match Files.Path.parent? path with
      | some folder => stage.makeFolders folder
      | none => (.ok (), stage)
    match made with
    | .error fault => .error (.io (.staging name) fault)
    | .ok () => (stage.write path body.source.toUTF8).mapError (.io (.staging name))

/-- Writes all partials to a new stage, in byte order of their names. -/
def stage (store : Files.Store host) (partials : Partials) : Except SiteError (Stage host) :=
  partials.entries.foldlM (fun stage item => stageOne stage item.1 item.2) (Stage.fresh store)

end Partials

namespace Body

def renderLinked (linked : Markup.Linked) (context : Fields) : Except Stop String :=
  match linked.render context with
  | .ok text => .ok text
  | .error .unwritable => .error .aborted
  | .error .tooDeep => .error .endless

/-- The text of a body for a context. A partial that is not among `partials` is empty, unless its name
leads out of the stage to a file of the store. The first name tells an error apart from others. -/
def render (store : Files.Store host) (name : String) (body : Body) (context : Fields)
    (partials : Partials) : Except Stop String :=
  if partials.isEmpty || body.references.isEmpty then
    renderLinked body.linked context
  else
    match partials.stage store with
    | .error error => .error (.error error)
    | .ok stage =>
      match stage.compile body.source with
      | .error cause => .error (.error (.render name cause))
      | .ok linked => renderLinked linked context

end Body

end Folio
