/-!
# Journals

What an operation reports while it runs, one entry after the other. A reader asks for the entries up
to a severity.
-/

namespace Folio

inductive Severity where
  | error
  | warn
  | info
  | debug
  | trace
deriving DecidableEq, Repr

namespace Severity

def rank : Severity → Nat
  | error => 1
  | warn => 2
  | info => 3
  | debug => 4
  | trace => 5

def name : Severity → String
  | error => "ERROR"
  | warn => "WARN"
  | info => "INFO"
  | debug => "DEBUG"
  | trace => "TRACE"

/-- The least severe entries that a setting lets through, letters of either case; `off` lets
nothing through. -/
def setting? (text : String) : Option (Option Severity) :=
  let lower := text.map Char.toLower
  if lower = "off" then some none
  else
    ([error, warn, info, debug, trace].find? fun severity =>
      severity.name.map Char.toLower = lower).map some

end Severity

structure JournalEntry where
  severity : Severity
  message : String
deriving DecidableEq, Repr

abbrev Journal := List JournalEntry

namespace Journal

def lines (journal : Journal) (least : Option Severity) : List String :=
  match least with
  | none => []
  | some least =>
    (journal.filter fun entry => entry.severity.rank ≤ least.rank).map fun entry =>
      entry.severity.name ++ " " ++ entry.message

def warn (message : String) : Journal := [⟨.warn, message⟩]

def info (message : String) : Journal := [⟨.info, message⟩]

def debug (message : String) : Journal := [⟨.debug, message⟩]

end Journal

end Folio
