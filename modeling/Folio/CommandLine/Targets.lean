import Folio.CommandLine.Global
import Folio.CommandLine.Invocation
import Folio.Config.Loading
/-!
# Targets of a command

The targets that a command works on: those named, or else all that are configured, or else the site
itself. What the command line says goes over what the configuration says.
-/

namespace Folio.CommandLine

/-- The configuration of the given path, or else the one at hand if there is one. -/
def SourceArguments.load {host : Host} (store : Files.Store host) (source : SourceArguments) :
    Except SiteError SiteConfig :=
  match source.config with
  | some path => loadConfig store path
  | none => loadConfigOrDefault store "."

/-- Lays what the command line says over a target; of globals with one key the last one counts. -/
def SourceArguments.adjust (source : SourceArguments) (globals : List (String × Json))
    (target : ResolvedTarget) : ResolvedTarget where
  name := target.name
  globals := target.globals.overlay (.ofList globals)
  options := {
    src := source.src.getD target.options.src
    dist := target.options.dist
    types := if source.types.isEmpty then target.options.types else source.types }

/-- The targets that are asked for; none stands for the site itself. -/
def requested (config : SiteConfig) (names : List String) : List (Option String) :=
  if ¬ names.isEmpty then names.map some
  else if config.targets.isEmpty then [none]
  else config.targetNames.map some

/-- The targets asked for, up to the first that is not configured. -/
def resolveTargets (config : SiteConfig) (names : List String) (source : SourceArguments)
    (globals : List (String × Json)) : Except SiteError (List ResolvedTarget) :=
  (requested config names).mapM fun name => (config.resolve name).map (source.adjust globals)

def targetLabel (target : ResolvedTarget) : String :=
  target.name.getD "default"

/-- The targets to build. Globals are read first, then the configuration, then the names. -/
def BuildArguments.resolve {host : Host} (store : Files.Store host) (arguments : BuildArguments) :
    Except Report (List ResolvedTarget) := do
  let globals ← parseGlobals arguments.globals
  let config ← (arguments.source.load store).mapError .site
  let targets ← (resolveTargets config arguments.targets arguments.source globals).mapError .site
  return targets.map fun target => {
    target with
    options := {
      target.options with
      dist := arguments.dist.getD target.options.dist } }

def resolveChecked {host : Host} (store : Files.Store host) (target : Option String)
    (source : SourceArguments) :
    Except Report (List ResolvedTarget) := do
  let config ← (source.load store).mapError .site
  (resolveTargets config target.toList source []).mapError .site

end Folio.CommandLine
