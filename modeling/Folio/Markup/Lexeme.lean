import Folio.Markup.Tag
/-!
# Lexemes

A template cut into text and tags. The reader goes over the source once; a tag that sets delimiters
acts on everything after it.
-/

namespace Folio.Markup

inductive Lexeme where
  /-- Text outside tags, never empty. -/
  | text (chars : List Char)
  | tag (tag : Tag)
deriving DecidableEq, Repr

inductive Ending where
  | clean
  /-- Inside a closing delimiter: the content of the tag and the part that was read of the
  delimiter stand as text. -/
  | torn (chars : List Char)
  /-- With a fault, before which everything could be read. -/
  | fault (fault : SyntaxFault)
deriving DecidableEq, Repr

namespace Lexeme

/-- Where the reader is. Texts are held in reverse. -/
inductive Place where
  | text (seen : List Char)
  /-- In an opening delimiter, part of which matched and part of which is still to come. -/
  | opening (seen matched expected : List Char)
  /-- In a tag. It is braced while a brace that opened its content has not met its partner. -/
  | tag (content : List Char) (braced : Bool)
  /-- After the first character of a closing delimiter. -/
  | closing (content : List Char) (braced : Bool)

/-- A text that ends here, in front of what follows it. -/
def prepend (seen : List Char) (rest : List Lexeme × Ending) : List Lexeme × Ending :=
  if seen = [] then rest else (.text seen.reverse :: rest.1, rest.2)

/-- A tag whose closing delimiter has been read, in front of the lexemes that follow under the
delimiters then in force. -/
def finish (delims : Delims) (content : List Char) (follow : Delims → List Lexeme × Ending) :
    List Lexeme × Ending :=
  match Tag.read content.reverse with
  | .error fault => ([], .fault fault)
  | .ok (.delims next) => after (.delims next) (follow next)
  | .ok found => after found (follow delims)
where
  after (found : Tag) (rest : List Lexeme × Ending) : List Lexeme × Ending :=
    (.tag found :: rest.1, rest.2)

def scan (delims : Delims) : Place → List Char → List Lexeme × Ending
  | .text seen, [] => prepend seen ([], .clean)
  | .opening seen matched _, [] => prepend (matched ++ seen) ([], .clean)
  | .tag _ _, [] => ([], .fault .unclosedTag)
  | .closing content _, [] => ([], .torn (delims.closing.head delims.closing_ne :: content).reverse)
  | .text seen, c :: rest =>
    if c = delims.opening.head delims.opening_ne then
      if delims.opening.tail = [] then prepend seen (scan delims (.tag [] false) rest)
      else scan delims (.opening seen [c] delims.opening.tail) rest
    else scan delims (.text (c :: seen)) rest
  | .opening seen matched expected, c :: rest =>
    if expected.head? = some c then
      if expected.tail = [] then prepend seen (scan delims (.tag [] false) rest)
      else scan delims (.opening seen (c :: matched) expected.tail) rest
    else scan delims (.text (c :: (matched ++ seen))) rest
  | .tag content braced, c :: rest =>
    if content = [] ∧ c = '{' then scan delims (.tag [c] true) rest
    else if braced ∧ c = '}' then scan delims (.tag (c :: content) false) rest
    else if c = delims.closing.head delims.closing_ne then
      if delims.closing.tail = [] then finish delims content fun next => scan next (.text []) rest
      else scan delims (.closing content braced) rest
    else scan delims (.tag (c :: content) braced) rest
  | .closing content braced, c :: rest =>
    if delims.closing.tail.head? = some c then
      if delims.closing.tail.tail = [] then finish delims content fun next => scan next (.text []) rest
      else scan delims (.tag (c :: delims.closing.head delims.closing_ne :: content) braced) rest
    else ([], .fault .malformedClosing)

/-- The lexemes of a source, with the standard delimiters at its start. -/
def ofSource (source : List Char) : List Lexeme × Ending :=
  scan .standard (.text []) source

end Lexeme

end Folio.Markup
