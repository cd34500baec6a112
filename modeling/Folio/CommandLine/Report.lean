import Folio.SiteError
/-!
# Reports

Why a command fails, in the words it is told in.
-/

namespace Folio.CommandLine

inductive Report where
  /-- A global that is not written as key and value. -/
  | badGlobal (pair : String)
  | site (error : SiteError)
  /-- Problems that have been printed already. -/
  | rejected
  | targetsFailed (failed total : Nat)
deriving DecidableEq, Repr

namespace Report

def message : Report → String
  | badGlobal pair => "invalid global '" ++ pair ++ "', expected KEY=VALUE"
  | site error => error.message
  | rejected => "check failed"
  | targetsFailed failed total =>
    toString failed ++ " of " ++ toString total ++ " target(s) failed"

def help? : Report → Option String
  | site error => error.help?
  | _ => none

def text (report : Report) : String :=
  "error: " ++ report.message ++ (report.help?.elim "" ("\nhelp: " ++ ·))

end Report

end Folio.CommandLine
