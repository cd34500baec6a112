import Folio.Text.Digits
import Folio.Toml.Reader
/-!
# TOML strings

The four kinds of strings: with escapes in double quotes and without in single ones, on one line or,
in triple quotes, on several.
-/

namespace Folio.Toml

open Reader

/-- A line break, with or without a carriage return. -/
def lineBreak : Reader Unit := char '\n' <|> chars ['\r', '\n']

def isIndent (c : Char) : Bool := c = ' ' || c = '\t'

/-- Spaces and tabs. -/
def skipIndent : Reader Unit := do
  let _ ← takeWhile isIndent

/-- Characters that may stand in comments and strings: all but control characters, tabs excepted. -/
def isPlain (c : Char) : Bool := c = '\t' || (0x20 ≤ c.toNat && c.toNat != 0x7F)

/-- A character given by so many hexadecimal digits. -/
def codePoint (digits : Nat) : Reader (List Char) := fun text => do
  let number ← (text.take digits).foldlM (fun number c => do
    return number * 16 + (← Text.hexValue? c)) 0
  if digits ≤ text.length ∧ number.isValidChar then some ([Char.ofNat number], text.drop digits)
  else none

/-- What an escape sequence stands for, after its backslash. -/
def escape : Reader (List Char) := do
  match ← satisfy fun _ => true with
  | 'b' => return ['\x08']
  | 't' => return ['\t']
  | 'n' => return ['\n']
  | 'f' => return ['\x0c']
  | 'r' => return ['\r']
  | '"' => return ['"']
  | '\\' => return ['\\']
  | 'u' => codePoint 4
  | 'U' => codePoint 8
  | _ => failure

/-- Content of a string in pieces. -/
def pieces (piece : Reader (List Char)) : Reader (List Char) := List.flatten <$> many piece

def basicPiece : Reader (List Char) :=
  (do return [← satisfy fun c => isPlain c && c != '"' && c != '\\'])
  <|> (do
    char '\\'
    escape)

def literalPiece : Reader (List Char) := do
  return [← satisfy fun c => isPlain c && c != '\'']

/-- One or two quotes that do not begin a closing triple. -/
def looseQuotes (quote : Char) : Reader (List Char)
  | a :: b :: c :: rest =>
    if a = quote then
      if b = quote then if c = quote then none else some ([a, b], c :: rest)
      else some ([a], b :: c :: rest)
    else none
  | _ => none

/-- Three quotes, and up to two more before them that belong to the content. -/
def closingQuotes (quote : Char) : Reader (List Char) :=
  (do
    chars (List.replicate 5 quote)
    return [quote, quote])
  <|> (do
    chars (List.replicate 4 quote)
    return [quote])
  <|> (do
    chars (List.replicate 3 quote)
    return [])

/-- A line break in a string of several lines counts as a line feed. -/
def innerBreak : Reader (List Char) := do
  lineBreak
  return ['\n']

/-- A backslash at the end of a line: the break and all space up to the next text are left out. -/
def joinedLines : Reader (List Char) := do
  char '\\'
  skipIndent
  lineBreak
  let _ ← many (lineBreak <|> (do let _ ← satisfy isIndent))
  return []

/-- A string of several lines, the first of which may be empty. -/
def longString (quote : Char) (piece : Reader (List Char)) : Reader String := do
  chars (List.replicate 3 quote)
  let _ ← optional lineBreak
  let content ← pieces (piece <|> looseQuotes quote)
  return String.ofList (content ++ (← closingQuotes quote))

def shortString (quote : Char) (piece : Reader (List Char)) : Reader String := do
  char quote
  let content ← pieces piece
  char quote
  return String.ofList content

/-- A string on one line, of either kind. -/
def oneLineString : Reader String :=
  shortString '"' basicPiece <|> shortString '\'' literalPiece

/-- A string of any of the four kinds. -/
def anyString : Reader String :=
  longString '"' (joinedLines <|> basicPiece <|> innerBreak)
  <|> longString '\'' (literalPiece <|> innerBreak)
  <|> oneLineString

end Folio.Toml
