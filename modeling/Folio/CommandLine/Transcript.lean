import Folio.Site.Build
import Folio.Site.Check
/-!
# Transcripts

What commands print, line by line: plans, reports of builds and the results of checks.
-/

namespace Folio.CommandLine

/-- The lines printed to either stream, and the journal kept while they were printed. -/
structure Transcript where
  out : List String := []
  err : List String := []
  journal : Journal := []
deriving DecidableEq, Repr, Inhabited

namespace Transcript

instance : Append Transcript where
  append a b := ⟨a.out ++ b.out, a.err ++ b.err, a.journal ++ b.journal⟩

def text (lines : List String) : String :=
  String.join (lines.map (· ++ "\n"))

end Transcript

/-- A line without what ends it: a line feed, or a carriage return and a line feed. -/
def dropLineEnd (line : List Char) : List Char :=
  match line.reverse with
  | '\n' :: '\r' :: before => before.reverse
  | '\n' :: before => before.reverse
  | _ => line

def contentLines (content : String) : List String :=
  (Text.lines content.toList).map fun line => String.ofList (dropLineEnd line)

def countsText (layouts partials pages : Nat) : String :=
  toString layouts ++ " layouts, " ++ toString partials ++ " partials, " ++ toString pages ++ " pages"

def rule : String := "  ──────"

/-- A page that would be written, with its content if that is asked for. -/
def pageLines (verbose : Bool) (page : PlannedPage) : List String :=
  ("  create " ++ page.path ++ " (layout: " ++ page.layout.getD "-" ++ ")") ::
    if verbose then rule :: (contentLines page.content).map ("  " ++ ·) ++ [rule, ""] else []

def planLines (verbose : Bool) (plan : BuildPlan) : List String :=
  ["", "==> Dry run — pages that would be written to " ++ plan.dist ++ ":"]
    ++ plan.pages.flatMap (pageLines verbose)
    ++ ["", "Summary: " ++ countsText plan.layouts plan.partials plan.pages.length,
      "", "ℹ Dry run — no files written."]

def warningLines (warnings : List String) : List String :=
  warnings.map ("warning: " ++ ·)

def planTranscript (verbose : Bool) (plan : BuildPlan) : Transcript where
  out := planLines verbose plan
  err := warningLines plan.warnings

def reportTranscript (report : BuildReport) : Transcript where
  out := ["  ✓ " ++ countsText report.layouts report.partials report.pages]
  err := warningLines report.warnings

def titled (title mark : String) (lines : List String) : List String :=
  if lines.isEmpty then [] else "" :: title :: lines.map (mark ++ ·)

def checkTranscript (result : CheckResult) : Transcript where
  out := ["  Layouts: " ++ toString result.layouts, "  Partials: " ++ toString result.partials,
      "  Pages: " ++ toString result.pages]
    ++ titled "Warnings:" "  ⚠ " result.warnings
    ++ titled "Errors:" "  ✗ " result.errors
    ++ ["", if result.isOk then "✓ Site is valid!"
      else "✗ Site has " ++ toString result.errors.length ++ " error(s)"]

end Folio.CommandLine
