import Folio.Index
import Folio.Json.Basic
import Folio.Site.Options
/-!
# Configuration

Settings for a site and for named targets of it. What a target leaves open comes from the site, and
what the site leaves open from the defaults.
-/

namespace Folio

/-- Options of one layer; those that are not set come from the layer below. -/
structure OptionsLayer where
  src : Option String := none
  dist : Option String := none
  types : Option (List String) := none
deriving DecidableEq, Repr, Inhabited

/-- The options with the fields that a layer sets replaced. -/
def BuildOptions.overlay (options : BuildOptions) (layer : OptionsLayer) : BuildOptions where
  src := layer.src.getD options.src
  dist := layer.dist.getD options.dist
  types := layer.types.getD options.types

structure TargetConfig where
  globals : Fields := []
  options : OptionsLayer := {}
deriving Inhabited

structure SiteConfig where
  globals : Fields := []
  options : OptionsLayer := {}
  /-- Targets by name. -/
  targets : Index String TargetConfig := .empty
deriving Inhabited

/-- Globals and options of one build. -/
structure ResolvedTarget where
  name : Option String
  globals : Fields
  options : BuildOptions
deriving Inhabited

namespace SiteConfig

def targetNames (config : SiteConfig) : List String :=
  config.targets.keys

def target? (config : SiteConfig) (name : String) : Option TargetConfig :=
  config.targets.get? name

/-- The globals and options without a target. -/
def resolveTop (config : SiteConfig) : ResolvedTarget where
  name := none
  globals := config.globals
  options := ({} : BuildOptions).overlay config.options

/-- The globals and options of a target laid over those of the site. -/
def resolveWith (config : SiteConfig) (name : String) (target : TargetConfig) : ResolvedTarget where
  name := some name
  globals := config.globals.overlay target.globals
  options := (({} : BuildOptions).overlay config.options).overlay target.options

/-- The globals and options of a named target, or of the site itself. -/
def resolve (config : SiteConfig) : Option String → Except SiteError ResolvedTarget
  | none => .ok config.resolveTop
  | some name =>
    match config.target? name with
    | some target => .ok (config.resolveWith name target)
    | none => .error (.unknownTarget name)

/-- Checks the options of the site and then those of every target. -/
def validate (config : SiteConfig) : Except SiteError Unit := do
  config.resolveTop.options.validate
  config.targets.entries.forM fun (name, target) => (config.resolveWith name target).options.validate

end SiteConfig

end Folio
