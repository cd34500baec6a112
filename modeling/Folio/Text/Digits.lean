/-!
# Digits

The values of digits, in any base up to sixteen.
-/

namespace Folio.Text

/-- The value of a decimal digit. -/
def digitValue (c : Char) : Nat := c.toNat - '0'.toNat

/-- The value of a hexadecimal digit, in either case. -/
def hexValue? (c : Char) : Option Nat :=
  if c.isDigit then some (digitValue c)
  else if 'a' ≤ c ∧ c ≤ 'f' then some (c.toNat - 'a'.toNat + 10)
  else if 'A' ≤ c ∧ c ≤ 'F' then some (c.toNat - 'A'.toNat + 10)
  else none

/-- The number that digits of a base stand for, the first of them being the highest. What is no
digit counts as zero. -/
def number (base : Nat) (digits : List Char) : Nat :=
  digits.foldl (fun number c => number * base + (hexValue? c).getD 0) 0

/-- The number that digits of a base stand for, unless it is above a limit. -/
def number? (base limit : Nat) (digits : List Char) : Option Nat :=
  digits.foldlM (fun number c =>
    let next := number * base + (hexValue? c).getD 0
    if next ≤ limit then some next else none) 0

end Folio.Text
