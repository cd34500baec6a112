import Folio.Config.Decoding
import Folio.Toml.Document
/-!
# Loading configuration

The configuration of a site from its file, given by the path of the file or of the folder that it
lies in.
-/

namespace Folio

def configFile : String := "stache.toml"

/-- The path of the configuration file that a path stands for. -/
def configPath {host : Host} (store : Files.Store host) (path : String) : String :=
  if Files.Path.endsIn path configFile || store.hasFile path then path
  else Files.Path.join path configFile

def readConfig (text : String) : Except SiteError SiteConfig := do
  match (Toml.read? text).bind SiteConfig.decode with
  | none => .error .configParse
  | some config =>
    config.validate
    return config

def loadConfig {host : Host} (store : Files.Store host) (path : String) : Except SiteError SiteConfig :=
  let path := configPath store path
  if store.has path then
    match store.readText path with
    | .error fault => .error (.io (.reading path) fault)
    | .ok text => readConfig text
  else .error (.configNotFound path)

/-- The configuration that a path stands for, or one that sets nothing if there is no such file. -/
def loadConfigOrDefault {host : Host} (store : Files.Store host) (path : String) :
    Except SiteError SiteConfig :=
  if store.has (configPath store path) then loadConfig store path else .ok {}

end Folio
