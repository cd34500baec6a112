import Folio.Host
import Folio.Site.Options
/-!
# Matchers

Template files are told by their extensions, and named by what precedes them.
-/

namespace Folio

/-- The extensions of template files, without the dot before them. -/
structure Matcher where
  extensions : List String
deriving DecidableEq, Repr, Inhabited

namespace Matcher

/-- The matcher of some extensions, unless the engine refuses their pattern. -/
def ofTypes (host : Host) (types : List String) : Except SiteError Matcher :=
  match host.refusal? types with
  | some cause => .error (.invalidMatcher cause)
  | none => .ok ⟨types⟩

/-- What may follow the dot. Without any extension it is the empty one. -/
def endings (matcher : Matcher) : List (List Char) :=
  match matcher.extensions with
  | [] => [[]]
  | extensions => extensions.map String.toList

/-- The text before the first dot that is followed by an ending and nothing else. -/
def stripChars (endings : List (List Char)) : List Char → Option (List Char)
  | [] => none
  | c :: rest =>
    if c = '.' ∧ rest ∈ endings then some []
    else (stripChars endings rest).map (c :: ·)

/-- A file name without the longest extension that it ends in and the dot before that. -/
def strip? (matcher : Matcher) (fileName : String) : Option String :=
  (stripChars matcher.endings fileName.toList).map String.ofList

def matches? (matcher : Matcher) (fileName : String) : Bool :=
  (matcher.strip? fileName).isSome

end Matcher

/-- The matcher that options ask for, if they are valid and the engine takes the pattern. -/
def BuildOptions.matcher (host : Host) (options : BuildOptions) : Except SiteError Matcher := do
  options.validate
  Matcher.ofTypes host options.types

end Folio
