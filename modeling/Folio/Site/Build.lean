import Folio.Site.Plan
/-!
# Builds

Writing a plan below its output folder. Files written before a failure stay.
-/

namespace Folio

structure BuildReport where
  layouts : Nat
  partials : Nat
  pages : Nat
  written : List String
  warnings : List String
deriving DecidableEq, Repr, Inhabited

variable {host : Host}

/-- Writes one file, making the folders it lies in. What was made before a fault stays. -/
def writePage (store : Files.Store host) (path : String) (content : String) :
    Except SiteError Unit × Files.Store host :=
  let folder := Files.Path.parent? path
  match folder.elim (.ok (), store) store.makeFolders with
  | (.error fault, made) => (.error (.io (.creatingFolder (folder.getD "")) fault), made)
  | (.ok (), made) =>
    match made.write path content.toUTF8 with
    | .error fault => (.error (.io (.writing path) fault), made)
    | .ok store => (.ok (), store)

def writePages (dist : String) :
    Files.Store host → List PlannedPage → Logged (List String) × Files.Store host
  | store, [] => (pure [], store)
  | store, page :: rest =>
    let path := Files.Path.join dist page.path
    match writePage store path page.content with
    | (.error error, store) => (.fail error, store)
    | (.ok (), store) =>
      let (written, store) := writePages dist store rest
      (do
        .tell (.debug ("wrote " ++ path))
        return path :: (← written), store)

def executeBuild (store : Files.Store host) (plan : BuildPlan) :
    Logged BuildReport × Files.Store host :=
  let (written, store) := writePages plan.dist store plan.pages
  (do
    let written ← written
    .tell (.info (toString plan.layouts ++ " layouts, " ++ toString plan.partials ++ " partials, "
      ++ toString plan.pages.length ++ " pages"))
    return ⟨plan.layouts, plan.partials, plan.pages.length, written, plan.warnings⟩, store)

def build (store : Files.Store host) (globals : Fields) (options : BuildOptions) :
    Logged BuildReport × Files.Store host :=
  match planBuild store globals options with
  | ⟨.error stop, journal⟩ => (⟨.error stop, journal⟩, store)
  | ⟨.ok plan, journal⟩ =>
    let (report, store) := executeBuild store plan
    (do
      .tell journal
      report, store)

end Folio
