import Folio.CommandLine.Draft
/-!
# Invocations

A command line understood in full: the command with its arguments and how much of the journal is
shown.
-/

namespace Folio.CommandLine

/-- Where templates come from, as far as the command line says. -/
structure SourceArguments where
  config : Option String := none
  src : Option String := none
  types : List String := []
deriving DecidableEq, Repr, Inhabited

structure BuildArguments where
  targets : List String := []
  source : SourceArguments := {}
  dist : Option String := none
  /-- Globals as they are written. -/
  globals : List String := []
  dryRun : Bool := false
  verbose : Bool := false
deriving DecidableEq, Repr, Inhabited

inductive Command where
  | build (arguments : BuildArguments)
  | check (target : Option String) (source : SourceArguments)
deriving DecidableEq, Repr

structure Invocation where
  /-- The entries shown are those at least as severe as this. -/
  log : Option Severity
  command : Command
deriving DecidableEq, Repr

namespace Draft

def source (draft : Draft) : SourceArguments where
  config := draft.value? .config
  src := draft.value? .src
  types := draft.values .type

def buildCommand (draft : Draft) : Command :=
  .build {
    targets := draft.operands
    source := draft.source
    dist := draft.value? .dist
    globals := draft.values .global
    dryRun := draft.has .dryRun
    verbose := draft.has .verbose }

def checkCommand (draft : Draft) : Command :=
  .check draft.operands.head? draft.source

def log? (draft : Draft) : Option (Option Severity) :=
  (draft.value? .log).bind Severity.setting?

def readAll (place : Place) (words : List String) : Except Refusal Draft := do
  let reading ← Draft.read place {} words
  reading.draft.settle

end Draft

def Refusal.ofHelp : List String → Refusal
  | [] => .help
  | name :: rest =>
    match CommandName.ofWord? name, rest with
    | some _, [] => .help
    | some _, next :: _ => .unknownCommand next
    | none, _ => .unknownCommand name

/-- Understands a command line. Faults after the name of a command win over a value given before it
that is still to be looked at, and a severity after it over one before it. -/
def Invocation.ofArguments (words : List String) : Except Refusal Invocation := do
  let front ← Draft.read .front {} words
  let finish (draft : Draft) (command : Command) : Except Refusal Invocation := do
    let front ← front.draft.settle
    return { log := (draft.log? <|> front.log?).getD (some .error), command }
  match front.next with
  | none =>
    let draft ← front.draft.settle
    .error (if draft.given.isEmpty then .nothingGiven else .noCommand)
  | some (.help, rest) => .error (.ofHelp rest)
  | some (.build, rest) =>
    let draft ← Draft.readAll .build rest
    finish draft draft.buildCommand
  | some (.check, rest) =>
    let draft ← Draft.readAll .check rest
    finish draft draft.checkCommand

end Folio.CommandLine
