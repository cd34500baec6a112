import Folio.Json.Basic
import Folio.Text.Digits
import Folio.Toml.Reader
/-!
# TOML numbers

Integers of 64 bits, in four bases, and doubles. Digits may be grouped by single underscores.
-/

namespace Folio.Toml

open Reader

/-- A run of digits in which single underscores may stand between digits. -/
def groupedDigits (isDigit : Char → Bool) : Reader (List Char) := do
  let first ← satisfy isDigit
  let rest ← many (satisfy isDigit <|> (do
    char '_'
    satisfy isDigit))
  return first :: rest

def sign : Reader Bool :=
  (do
    char '-'
    return true)
  <|> (do
    char '+'
    return false)
  <|> pure false

/-- A decimal integer without zeros in front, with its sign. -/
def decimal : Reader (Bool × List Char) := do
  let negative ← sign
  let digits ← (do
      let first ← satisfy fun c => c.isDigit && c != '0'
      let rest ← many (satisfy Char.isDigit <|> (do
        char '_'
        satisfy Char.isDigit))
      return first :: rest)
    <|> (do
      char '0'
      return ['0'])
  return (negative, digits)

/-- An integer by its digits, if 64 bits hold it. -/
def bounded? (negative : Bool) (base : Nat) (digits : List Char) : Option Json :=
  if negative then (Text.number? base (Nat.pow 2 63) digits).map fun number => .int (-(number : Int))
  else (Text.number? base (Nat.pow 2 63 - 1) digits).map fun number => .int number

def digitIn (base : Nat) (c : Char) : Bool :=
  match Text.hexValue? c with
  | some value => value < base
  | none => false

/-- An integer in another base than ten, after a zero and a letter. -/
def inBase (letter : Char) (base : Nat) : Reader Json := do
  char '0'
  char letter
  let digits ← groupedDigits (digitIn base)
  (bounded? false base digits : Option Json)

def integer : Reader Json :=
  inBase 'x' 16 <|> inBase 'o' 8 <|> inBase 'b' 2 <|> (do
    let (negative, digits) ← decimal
    (bounded? negative 10 digits : Option Json))

/-- The number of an exponent. Once it is beyond sixteen bits, further digits do not count. -/
def exponentValue (digits : List Char) : Nat :=
  digits.foldl (fun number c =>
    if number < 0x10000 then number * 10 + Text.digitValue c else number) 0

def exponent : Reader Int := do
  let _ ← satisfy fun c => c = 'e' || c = 'E'
  let negative ← sign
  let digits ← groupedDigits Char.isDigit
  return if negative then -(exponentValue digits : Int) else exponentValue digits

/-- More significant digits than any double has, or any number halfway between two. -/
def maxSignificant : Nat := 800

/-- The double nearest to digits times a power of ten, or none if that is out of range. Of the
digits beyond `maxSignificant` it matters only whether they are all zero. -/
def nearest? (negative : Bool) (digits : List Char) (power : Int) : Option Binary64 :=
  let (kept, rest) := (digits.dropWhile (· = '0')).splitAt maxSignificant
  let last := if rest.all (· = '0') then '0' else '1'
  Binary64.ofDecimal negative (Text.number 10 (kept ++ [last])) (power + rest.length - 1)

/-- A number with a fraction, an exponent or both. Above the range of doubles there is none, and
below it there is no value. -/
def float : Reader Json := do
  let (negative, whole) ← decimal
  let (fraction, power) ← (do
      char '.'
      let fraction ← groupedDigits Char.isDigit
      return (fraction, (← optional exponent).getD 0))
    <|> (do return ([], ← exponent))
  match nearest? negative (whole ++ fraction) (power - fraction.length) with
  | some value => return .float value
  | none => if negative then return .null else failure

/-- Infinity and not-a-number, for which there is no value. -/
def special : Reader Json := do
  let _ ← sign
  chars ['i', 'n', 'f'] <|> chars ['n', 'a', 'n']
  return .null

def number : Reader Json := special <|> float <|> integer

end Folio.Toml
