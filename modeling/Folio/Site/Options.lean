import Folio.Template.Data
/-!
# Build options

Where templates come from, where pages go and which files are templates.
-/

namespace Folio

structure BuildOptions where
  src : String := "src"
  dist : String := "dist"
  /-- Extensions of template files, without the leading dot. -/
  types : List String := ["mustache"]
deriving DecidableEq, Repr, Inhabited

namespace BuildOptions

/-- The first thing wrong with the options, if anything is. -/
def fault? (options : BuildOptions) : Option OptionFault :=
  if options.src.isEmpty then some .emptySource
  else if options.dist.isEmpty then some .emptyDist
  else if options.types.isEmpty then some .noTypes
  else (options.types.find? (!isPlainExtension ·)).map .badType

def validate (options : BuildOptions) : Except SiteError Unit :=
  match options.fault? with
  | some fault => .error (.configInvalid fault)
  | none => .ok ()

end BuildOptions

end Folio
