import Folio.Journal
/-!
# Options of the command line

The options there are, where each may be given and which values they take. Three places are told
apart: the front of the command line, before a command is named, and the arguments of either command.
-/

namespace Folio.CommandLine

inductive Switch where
  | log
  | config
  | src
  | type
  | dist
  | global
  | dryRun
  | verbose
  | help
  | version
deriving DecidableEq, Repr

/-- Why a command line is not run. Two of the reasons are requests to be told something. -/
inductive Refusal where
  | help
  | version
  /-- Nothing at all was given. -/
  | nothingGiven
  | noCommand
  | unknownCommand (word : String)
  | unknownArgument (text : String)
  /-- An option that can be given once is given again. -/
  | repeated (switch : Switch)
  /-- The value of an option is missing or empty. -/
  | noValue (switch : Switch)
  | badValue (switch : Switch) (value : String)
  /-- A value for an option that takes none. -/
  | unwantedValue (switch : Switch) (value : String)
deriving DecidableEq, Repr

/-- What is asked for is told without complaint. -/
def Refusal.isRequest : Refusal → Bool
  | help | version => true
  | _ => false

def Refusal.exitCode (refusal : Refusal) : Nat :=
  if refusal.isRequest then 0 else 2

namespace Switch

def long : Switch → String
  | log => "log"
  | config => "config"
  | src => "src"
  | type => "type"
  | dist => "dist"
  | global => "global"
  | dryRun => "dry-run"
  | verbose => "verbose"
  | help => "help"
  | version => "version"

def short? : Switch → Option Char
  | config => some 'c'
  | global => some 'g'
  | verbose => some 'v'
  | help => some 'h'
  | version => some 'V'
  | _ => none

def hasValue : Switch → Bool
  | dryRun | verbose | help | version => false
  | _ => true

/-- Whether it can be given more than once at one place. -/
def repeats : Switch → Bool
  | type | global => true
  | _ => false

/-- What is wrong with a value, if anything is. Paths must not be empty, and severities must have a
known name. -/
def fault? (switch : Switch) (value : String) : Option Refusal :=
  match switch with
  | config | src | dist => if value.isEmpty then some (.noValue switch) else none
  | log => if (Severity.setting? value).isNone then some (.badValue switch value) else none
  | _ => none

end Switch

/-- What can be named where a command is expected. -/
inductive CommandName where
  | build
  | check
  | help
deriving DecidableEq, Repr

def CommandName.ofWord? : String → Option CommandName
  | "build" => some .build
  | "check" => some .check
  | "help" => some .help
  | _ => none

inductive Place where
  | front
  | build
  | check
deriving DecidableEq, Repr

namespace Place

def switches : Place → List Switch
  | front => [.log, .help, .version]
  | build => [.log, .config, .src, .type, .dist, .global, .dryRun, .verbose, .help]
  | check => [.log, .config, .src, .type, .help]

def takesOperand (place : Place) (given : Nat) : Bool :=
  match place with
  | front => false
  | build => true
  | check => given = 0

def command? (place : Place) (word : String) : Option CommandName :=
  match place with
  | front => CommandName.ofWord? word
  | _ => none

end Place

end Folio.CommandLine
