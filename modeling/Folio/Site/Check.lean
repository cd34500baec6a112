import Folio.Site.Composition
import Folio.Site.Options
import Folio.Site.Registry
/-!
# Checks

Looks over a source tree without rendering. Problems are collected, those that stop a build as
errors and the others as warnings.
-/

namespace Folio

structure CheckResult where
  layouts : Nat
  partials : Nat
  pages : Nat
  warnings : List String
  errors : List String
deriving DecidableEq, Repr, Inhabited

namespace CheckResult

def isOk (result : CheckResult) : Bool := result.errors.isEmpty

end CheckResult

/-- The templates of a folder that can be loaded, and an error line for each of the others and for
each folder that cannot be looked into. -/
structure Survey where
  collection : Collection := .empty
  errors : List String := []
  journal : Journal := []
deriving Inhabited

namespace Survey

def add {host : Host} (store : Files.Store host) (survey : Survey) (found : Found) : Survey :=
  match found.file? with
  | .error error => { survey with errors := survey.errors ++ [error.describe] }
  | .ok none => { survey with journal := survey.journal ++ found.journal }
  | .ok (some file) =>
    let loaded := Template.load store file
    let journal := survey.journal ++ found.journal ++ loaded.journal
    match loaded.outcome with
    | .ok template => {
        survey with
        collection := survey.collection.insert template
        journal := journal ++ survey.collection.insertJournal template }
    | .error (.error error) => { survey with errors := survey.errors ++ [error.describe], journal }
    | .error _ => { survey with journal }

def ofFolder {host : Host} (store : Files.Store host) (folder : String) (matcher : Matcher) : Survey :=
  (discover store folder matcher).foldl (add store) {}

end Survey

/-- Layouts that ask for a layout, in vain. -/
def nestedLayouts (layouts : Collection) : List String :=
  layouts.templates.filterMap fun layout => layout.layout.map fun nested =>
    "layout '" ++ layout.name ++ "' declares layout '" ++ nested ++ "'; layouts are not nested"

def unknownLayouts (layouts pages : Collection) : List String :=
  pages.templates.filterMap fun page =>
    match page.layout, resolveLayout page layouts with
    | some declared, none => some ("page '" ++ page.name ++ "' declares unknown layout '"
        ++ declared ++ "'; it will render without one")
    | _, _ => none

/-- References to partials that are not there, in templates of one kind. A name bound in rendering
is not missed. -/
def missingPartials (kind : String) (bound : List String) (partials templates : Collection) :
    List String :=
  templates.templates.flatMap fun template =>
    (template.body.references.filter fun reference =>
      !bound.contains reference && (partials.lookup reference).isNone).map fun reference =>
        kind ++ " '" ++ template.name ++ "' references missing partial '" ++ reference
          ++ "'; it renders empty"

/-- Warnings about how templates refer to one another. Layouts see the page as a partial. -/
def relationWarnings (layouts partials pages : Collection) : List String :=
  (if (partials.lookup contentName).isSome && !layouts.isEmpty then
    ["partial '" ++ contentName ++ "' is shadowed by the page body inside layouts"] else [])
  ++ nestedLayouts layouts
  ++ unknownLayouts layouts pages
  ++ missingPartials "layout" [contentName] partials layouts
  ++ missingPartials "partial" [] partials partials
  ++ missingPartials "page" [] partials pages

def checkSite {host : Host} (store : Files.Store host) (options : BuildOptions) :
    Logged CheckResult := do
  let matcher ← .lift ((options.matcher host).mapError .error)
  let survey (folder : String) := Survey.ofFolder store (Files.Path.join options.src folder) matcher
  let layouts := survey Registry.layoutsFolder
  let partials := survey Registry.partialsFolder
  let pages := survey Registry.pagesFolder
  .tell (layouts.journal ++ partials.journal ++ pages.journal)
  let none := SiteError.noPages (Files.Path.join options.src Registry.pagesFolder)
  return {
    layouts := layouts.collection.size
    partials := partials.collection.size
    pages := pages.collection.size
    warnings := layouts.collection.warnings ++ partials.collection.warnings
      ++ pages.collection.warnings
      ++ relationWarnings layouts.collection partials.collection pages.collection
    errors := layouts.errors ++ partials.errors ++ pages.errors
      ++ (if pages.collection.isEmpty then [none.message] else [])
  }

end Folio
