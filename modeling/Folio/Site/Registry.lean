import Folio.Site.Discovery
import Folio.Template.Collection
/-!
# Registries

The layouts, partials and pages of a source tree.
-/

namespace Folio

variable {host : Host}

namespace Collection

/-- Adds the templates of the files come across, up to the first that cannot be loaded or looked
into. -/
def addAll (store : Files.Store host) (collection : Collection) : List Found → Logged Collection
  | [] => pure collection
  | found :: rest => do
    .tell found.journal
    match found.file? with
    | .error error => .fail error
    | .ok none => addAll store collection rest
    | .ok (some file) => do
      let template ← Template.load store file
      .tell (collection.insertJournal template)
      addAll store (collection.insert template) rest

def populate (store : Files.Store host) (folder : String) (matcher : Matcher) : Logged Collection := do
  let collection ← addAll store .empty (discover store folder matcher)
  .tell (.debug (toString collection.size ++ " templates loaded from " ++ folder))
  return collection

end Collection

structure Registry where
  layouts : Collection
  partials : Collection
  pages : Collection
deriving Inhabited

namespace Registry

def layoutsFolder : String := "layouts"

def partialsFolder : String := "partials"

def pagesFolder : String := "pages"

def discover (store : Files.Store host) (src : String) (matcher : Matcher) : Logged Registry := do
  let layouts ← Collection.populate store (Files.Path.join src layoutsFolder) matcher
  .tell (.info (toString layouts.size ++ " layouts"))
  let partials ← Collection.populate store (Files.Path.join src partialsFolder) matcher
  .tell (.info (toString partials.size ++ " partials"))
  let pages ← Collection.populate store (Files.Path.join src pagesFolder) matcher
  .tell (.info (toString pages.size ++ " pages"))
  return ⟨layouts, partials, pages⟩

def warnings (registry : Registry) : List String :=
  registry.layouts.warnings ++ registry.partials.warnings ++ registry.pages.warnings

end Registry

end Folio
