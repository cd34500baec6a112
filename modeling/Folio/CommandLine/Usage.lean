import Folio.CommandLine.Switch
/-!
# Usage

How the command line is used, and what is told when it is not run.
-/

namespace Folio.CommandLine

/-- What an option stands for, with the name of its value. -/
def Switch.summary : Switch → String
  | .log => "--log LEVEL          off, error, warn, info, debug or trace"
  | .config => "-c, --config PATH    the configuration, stache.toml if there is one"
  | .src => "--src PATH           the folder of layouts, partials and pages"
  | .type => "--type EXT           the extension of templates; can be repeated"
  | .dist => "--dist PATH          the output folder"
  | .global => "-g, --global KEY=VALUE  a variable for all pages; can be repeated"
  | .dryRun => "--dry-run            show the pages and write nothing"
  | .verbose => "-v, --verbose        show the content of pages that are not written"
  | .help => "-h, --help           show this"
  | .version => "-V, --version        show the version"

def Place.summary (title : String) (place : Place) : List String :=
  title :: place.switches.map fun switch => "  " ++ switch.summary

def usage : String :=
  "\n".intercalate (
    Place.summary "folio [OPTIONS] COMMAND" .front
      ++ Place.summary "folio build [OPTIONS] [TARGET...]" .build
      ++ Place.summary "folio check [OPTIONS] [TARGET]" .check)

def Refusal.message : Refusal → String
  | help | nothingGiven => usage
  | version => "folio 0.1.0"
  | noCommand => "error: a command is missing"
  | unknownCommand word => "error: unknown command '" ++ word ++ "'"
  | unknownArgument text => "error: unexpected argument '" ++ text ++ "'"
  | repeated switch => "error: '--" ++ switch.long ++ "' is given more than once"
  | noValue switch => "error: a value is missing for '--" ++ switch.long ++ "'"
  | badValue switch value => "error: invalid value '" ++ value ++ "' for '--" ++ switch.long ++ "'"
  | unwantedValue switch value =>
    "error: unexpected value '" ++ value ++ "' for '--" ++ switch.long ++ "'"

end Folio.CommandLine
