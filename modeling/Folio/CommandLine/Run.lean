import Folio.CommandLine.Targets
import Folio.CommandLine.Transcript
/-!
# Running commands

Builds and checks target after target. A target that fails does not keep the others from their turn;
where there is only one, the command fails in its words.
-/

namespace Folio.CommandLine

/-- What came of a target that could be worked on. -/
inductive Verdict where
  | passed
  | rejected
deriving DecidableEq, Repr

/-- The work on one target: what it prints, how it ends and the files it leaves. -/
structure Work (host : Host) where
  transcript : Transcript
  verdict : Except Stop Verdict
  store : Files.Store host

variable {host : Host}

namespace Work

def ofLogged {α : Type} (heading : String) (result : Logged α) (store : Files.Store host)
    (print : α → Transcript) (judge : α → Verdict) : Work host where
  transcript := { out := [heading], journal := result.journal }
    ++ (match result.outcome with
      | .ok value => print value
      | .error _ => {})
  verdict := result.outcome.map judge
  store := store

end Work

def buildTarget (arguments : BuildArguments) (store : Files.Store host) (target : ResolvedTarget) :
    Work host :=
  let heading := "Building target " ++ targetLabel target
  if arguments.dryRun then
    .ofLogged heading (planBuild store target.globals target.options) store
      (planTranscript arguments.verbose) fun _ => .passed
  else
    let (report, store) := build store target.globals target.options
    .ofLogged heading report store reportTranscript fun _ => .passed

def checkTarget (store : Files.Store host) (target : ResolvedTarget) : Work host :=
  .ofLogged ("Checking " ++ targetLabel target ++ " (" ++ target.options.src ++ ")")
    (checkSite store target.options) store checkTranscript fun result =>
      if result.isOk then .passed else .rejected

/-- How a command ends. -/
inductive Ending where
  | finished
  | failed (report : Report)
  /-- A value tag met a value that cannot be written; nothing is reported. -/
  | aborted
deriving DecidableEq, Repr

def Ending.exitCode : Ending → Nat
  | finished => 0
  | failed _ => 1
  | aborted => 101

/-- A command that has been run. -/
structure Run (host : Host) where
  transcript : Transcript
  ending : Ending
  store : Files.Store host

/-- The run of a command on one target. -/
def Work.run (work : Work host) : Run host where
  transcript := work.transcript
  ending := match work.verdict with
    | .ok .passed => .finished
    | .ok .rejected => .failed .rejected
    | .error (.error error) => .failed (.site error)
    | .error _ => .aborted
  store := work.store

/-- Whether the work ended without a result to report. -/
def Work.isAborted (work : Work host) : Bool :=
  match work.verdict with
  | .ok _ | .error (.error _) => false
  | .error _ => true

def Work.hasFailed (work : Work host) : Bool :=
  match work.verdict with
  | .ok .passed => false
  | _ => true

/-- What is printed of one target among several: its error, if it has one, is printed too. -/
def Work.told (work : Work host) : Transcript :=
  work.transcript ++ (match work.verdict with
    | .error (.error error) => { err := [(Report.site error).text] }
    | _ => {})

/-- The work on targets in turn, each on the files that the one before it left, as far as one that is
aborted. -/
def workAll (work : Files.Store host → ResolvedTarget → Work host) :
    Files.Store host → List ResolvedTarget → List (Work host)
  | _, [] => []
  | store, target :: rest =>
    let done := work store target
    done :: if done.isAborted then [] else workAll work done.store rest

/-- Works on targets; with more than one, it is told in the end how many have failed. -/
def runTargets (work : Files.Store host → ResolvedTarget → Work host) (store : Files.Store host) :
    List ResolvedTarget → Run host
  | [target] => (work store target).run
  | targets =>
    let works := workAll work store targets
    let failed := works.countP Work.hasFailed
    { transcript := works.foldl (fun transcript work => transcript ++ work.told) {}
      ending :=
        if works.any Work.isAborted then .aborted
        else if failed = 0 then .finished
        else .failed (.targetsFailed failed targets.length)
      store := (works.getLast?.map Work.store).getD store }

def runResolved (work : Files.Store host → ResolvedTarget → Work host) (store : Files.Store host) :
    Except Report (List ResolvedTarget) → Run host
  | .error report => ⟨{}, .failed report, store⟩
  | .ok targets => runTargets work store targets

def runBuild (store : Files.Store host) (arguments : BuildArguments) : Run host :=
  runResolved (buildTarget arguments) store (arguments.resolve store)

def runCheck (store : Files.Store host) (target : Option String) (source : SourceArguments) :
    Run host :=
  runResolved checkTarget store (resolveChecked store target source)

def Command.run (store : Files.Store host) : Command → Run host
  | .build arguments => runBuild store arguments
  | .check target source => runCheck store target source

end Folio.CommandLine
