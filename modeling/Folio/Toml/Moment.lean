import Folio.Text.Digits
import Folio.Toml.Reader
/-!
# TOML dates and times

Dates, times of day and both together, with or without an offset. They are written in one form,
whatever letters they were given with: a `T` between date and time, fractions of a second without
zeros at their end and at most nine digits long.
-/

namespace Folio.Toml

open Reader

/-- So many digits, whose number is in a range. -/
def fixedDigits (count low high : Nat) : Reader Nat := fun text =>
  let digits := text.take count
  let number := Text.number 10 digits
  if digits.length = count ∧ digits.all Char.isDigit ∧ low ≤ number ∧ number ≤ high then
    some (number, text.drop count)
  else none

/-- A number with zeros in front of it up to so many digits. -/
def padded (count number : Nat) : String :=
  let digits := (Nat.repr number).toList
  String.ofList (List.replicate (count - digits.length) '0' ++ digits)

def isLeapYear (year : Nat) : Bool :=
  year % 4 = 0 && (year % 100 != 0 || year % 400 = 0)

def daysInMonth (year month : Nat) : Nat :=
  if month = 2 then if isLeapYear year then 29 else 28
  else if month = 4 ∨ month = 6 ∨ month = 9 ∨ month = 11 then 30
  else 31

def date : Reader String := do
  let year ← fixedDigits 4 0 9999
  char '-'
  let month ← fixedDigits 2 1 12
  char '-'
  let day ← fixedDigits 2 1 (daysInMonth year month)
  return padded 4 year ++ "-" ++ padded 2 month ++ "-" ++ padded 2 day

/-- The digits after a point that are written: nine at most, without zeros at their end. -/
def fractionText (digits : List Char) : String :=
  match (((digits.take 9).reverse.dropWhile (· = '0')).reverse) with
  | [] => ""
  | kept => String.ofList ('.' :: kept)

/-- A time of day; a second may be a leap second. -/
def time : Reader String := do
  let hour ← fixedDigits 2 0 23
  char ':'
  let minute ← fixedDigits 2 0 59
  char ':'
  let second ← fixedDigits 2 0 60
  let fraction ← optional (do
    char '.'
    takeWhile1 Char.isDigit)
  return padded 2 hour ++ ":" ++ padded 2 minute ++ ":" ++ padded 2 second
    ++ (fraction.map fractionText).getD ""

/-- The distance from universal time, whose zero has no sign of its own. -/
def offset : Reader String :=
  (do
    let _ ← satisfy fun c => c = 'Z' || c = 'z'
    return "Z")
  <|> (do
    let sign ← satisfy fun c => c = '+' || c = '-'
    let hour ← fixedDigits 2 0 23
    char ':'
    let minute ← fixedDigits 2 0 59
    let shown := if hour = 0 ∧ minute = 0 then "+" else sign.toString
    return shown ++ padded 2 hour ++ ":" ++ padded 2 minute)

/-- A date, a time, or a date with a time. -/
def moment : Reader String :=
  (do
    let day ← date
    let rest ← optional (do
      let _ ← satisfy fun c => c = 'T' || c = 't' || c = ' '
      let clock ← time
      return "T" ++ clock ++ (← optional offset).getD "")
    return day ++ rest.getD "")
  <|> time

end Folio.Toml
