import Folio.Site.Composition
import Folio.Site.Options
import Folio.Site.Registry
/-!
# Plans

A build worked out in full, with every page rendered and nothing written.
-/

namespace Folio

structure PlannedPage where
  name : String
  /-- Where the page goes below the output folder. -/
  path : String
  /-- The layout that the page was composed into. -/
  layout : Option String
  content : String
deriving DecidableEq, Repr, Inhabited

structure BuildPlan where
  dist : String
  layouts : Nat
  partials : Nat
  pages : List PlannedPage
  warnings : List String
deriving DecidableEq, Repr, Inhabited

variable {host : Host}

def planPage (store : Files.Store host) (registry : Registry) (globals : Fields) (page : Template) :
    Logged PlannedPage := do
  let content ← .lift (compose store page registry.layouts registry.partials globals)
  let layout := (resolveLayout page registry.layouts).map Template.name
  .tell (.debug ("rendered page '" ++ page.name ++ "' (" ++ layout.getD "no layout" ++ ")"))
  return ⟨page.name, page.outputPath, layout, content⟩

def planPages (store : Files.Store host) (registry : Registry) (globals : Fields) :
    List Template → Logged (List PlannedPage)
  | [] => pure []
  | page :: rest => do
    let planned ← planPage store registry globals page
    return planned :: (← planPages store registry globals rest)

/-- Finds the templates and renders every page, on stages beside the files as they are. A site without
pages is an error. -/
def planBuild (store : Files.Store host) (globals : Fields) (options : BuildOptions) :
    Logged BuildPlan := do
  let matcher ← .lift ((options.matcher host).mapError .error)
  let registry ← Registry.discover store options.src matcher
  if registry.pages.isEmpty then
    .fail (.noPages (Files.Path.join options.src Registry.pagesFolder))
  else
    let pages ← planPages store registry globals registry.pages.templates
    return ⟨options.dist, registry.layouts.size, registry.partials.size, pages, registry.warnings⟩

end Folio
