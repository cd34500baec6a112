import Folio.Text.Blank
import Folio.Text.Search
/-!
# Tags

What may stand between two delimiters: the kind is told by the first character, before any
trimming, and names are trimmed.
-/

namespace Folio.Markup

/-- The ways in which a template can be malformed. -/
inductive SyntaxFault where
  | malformedClosing
  | unclosedTag
  | unclosedSection
  | unbalancedUnescape
  | emptyTag
  | unopenedSection
  | missingClosing
  | invalidDelims
deriving DecidableEq, Repr

def SyntaxFault.message : SyntaxFault → String
  | malformedClosing => "found a malformed closing tag"
  | unclosedTag => "found an unclosed tag"
  | unclosedSection => "found an unclosed section"
  | unbalancedUnescape => "found an unbalanced unescape tag"
  | emptyTag => "found an empty tag"
  | unopenedSection => "found a closing tag for an unopened section"
  | missingClosing => "missing the new closing tag in set delimeter tag"
  | invalidDelims => "invalid set delimeter tag syntax"

structure Delims where
  opening : List Char
  closing : List Char
  opening_ne : opening ≠ [] := by decide
  closing_ne : closing ≠ [] := by decide
deriving DecidableEq, Repr

def Delims.standard : Delims where
  opening := ['{', '{']
  closing := ['}', '}']

/-- A dotted name, outermost part first. The empty path is the value at hand. -/
abbrev Path := List String

inductive Tag where
  | comment
  | value (path : Path) (escaped : Bool)
  | opening (path : Path) (inverted : Bool)
  | closing (path : Path)
  | inclusion (name : String)
  | delims (delims : Delims)
deriving DecidableEq, Repr

namespace Tag

def readName (content : List Char) : Except SyntaxFault (List Char) :=
  if Text.trim content = [] then .error .emptyTag else .ok (Text.trim content)

/-- The parts of a name: a single dot has none, and one empty part at the end is dropped. -/
def parts (name : List Char) : Path :=
  if name = ['.'] then []
  else
    let pieces := Text.splitOn '.' name
    (if pieces.getLast? = some [] then pieces.dropLast else pieces).map String.ofList

def readPath (content : List Char) : Except SyntaxFault Path := do
  return parts (← readName content)

/-- New delimiters between equals signs, the first of which has been read: the opening one up to
blank space, the closing one all that follows it. -/
def readDelims (content : List Char) : Except SyntaxFault Delims :=
  if 2 ≤ content.length ∧ content.getLast? = some '=' then do
    let both ← readName content.dropLast
    let opening := both.takeWhile (!Text.isBlank ·)
    let closing := Text.trimStart (both.dropWhile (!Text.isBlank ·))
    if ho : opening = [] then .error .emptyTag
    else if hc : closing = [] then .error .missingClosing
    else return ⟨opening, closing, ho, hc⟩
  else .error .invalidDelims

def read (content : List Char) : Except SyntaxFault Tag :=
  if Text.trim content = [] then .error .emptyTag
  else match content with
    | [] => .error .emptyTag
    | '!' :: _ => .ok .comment
    | '&' :: name => (readPath name).map (.value · false)
    | '{' :: name =>
      if name.getLast? = some '}' then (readPath name.dropLast).map (.value · false)
      else .error .unbalancedUnescape
    | '#' :: name => (readPath name).map (.opening · false)
    | '^' :: name => (readPath name).map (.opening · true)
    | '/' :: name => (readPath name).map .closing
    | '>' :: name => (readName name).map fun name => .inclusion (String.ofList name)
    | '=' :: both => (readDelims both).map .delims
    | _ => (readPath content).map (.value · true)

end Tag

end Folio.Markup
