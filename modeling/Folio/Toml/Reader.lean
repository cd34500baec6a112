/-!
# Readers

Reading from the start of a text, which fails as a whole or leaves the rest of the text. An
alternative starts again where the one before it started.
-/

namespace Folio.Toml

abbrev Reader := StateT (List Char) Option

namespace Reader

def peek? : Reader (Option Char) := fun text => some (text.head?, text)

/-- One character with a property. -/
def satisfy (p : Char → Bool) : Reader Char
  | [] => none
  | c :: rest => if p c then some (c, rest) else none

def char (c : Char) : Reader Unit := do
  let _ ← satisfy (· = c)

/-- All of the given characters, one after the other. -/
def chars (text : List Char) : Reader Unit := text.forM char

/-- The characters with a property up to the first without it. -/
def takeWhile (p : Char → Bool) : Reader (List Char) := fun text =>
  some (text.takeWhile p, text.dropWhile p)

/-- At least one character with a property, up to the first without it. -/
def takeWhile1 (p : Char → Bool) : Reader (List Char) := do
  return (← satisfy p) :: (← takeWhile p)

/-- The items read so far, in reverse, and those that follow them. There are no more of them than
`fuel` has characters. -/
def manyFrom {α : Type} (item : Reader α) : (fuel : List Char) → (found : List α) → Reader (List α)
  | [], found, text => some (found.reverse, text)
  | _ :: fuel, found, text =>
    match item text with
    | none => some (found.reverse, text)
    | some (value, rest) => manyFrom item fuel (value :: found) rest

/-- Items one after the other, as many as can be read. Each takes something from the text, so there
are no more of them than characters. -/
def many {α : Type} (item : Reader α) : Reader (List α) := fun text =>
  manyFrom item text [] text

/-- Runs a reader over a whole text. -/
def readAll? {α : Type} (reader : Reader α) (text : List Char) : Option α :=
  match reader text with
  | some (value, []) => some value
  | _ => none

end Reader

end Folio.Toml
