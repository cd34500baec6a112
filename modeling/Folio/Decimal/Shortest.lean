import Folio.Decimal.Binary64
/-!
# Shortest decimal text

A double is written with the fewest digits that read back as the same double, in positional
notation throughout. Of two candidates with that many digits the nearer one is taken, the upper
one if they are equally near.
-/

namespace Folio.Binary64

/-- A double's place among the reals in quarters of its last binary digit: the lower end of the
numbers that round to it, itself and the upper end, with the power of two they are counted in. The
numbers below a power of two lie twice as dense. -/
def quarters (x : Binary64) : Nat × Nat × Nat × Int :=
  let below := if x.mantissa = Nat.pow 2 52 ∧ -1074 < x.exponent then 1 else 2
  (4 * x.mantissa - below, 4 * x.mantissa, 4 * x.mantissa + 2, x.exponent - 2)

/-- The multiple of `10 ^ power` next to the number that rounds to it, if there is one. -/
def gridPoint? (x : Binary64) (power : Int) : Option Nat :=
  let (low, here, high, two) := x.quarters
  let up := Nat.pow 2 two.toNat * Nat.pow 10 (-power).toNat
  let down := Nat.pow 2 (-two).toNat * Nat.pow 10 power.toNat
  let floor := here * up / down
  let inside (digits : Nat) : Bool :=
    if x.mantissa % 2 = 0 then low * up ≤ digits * down && digits * down ≤ high * up
    else low * up < digits * down && digits * down < high * up
  let upperNearer : Bool := down ≤ 2 * (here * up - floor * down)
  match inside floor, inside (floor + 1) with
  | true, true => some (if upperNearer then floor + 1 else floor)
  | true, false => some floor
  | false, true => some (floor + 1)
  | false, false => none

def powerAbove (x : Binary64) : Int :=
  ((Nat.log2 x.mantissa : Int) + x.exponent + 1) * 30103 / 100000 + 2

/-- Digits and power of ten of the shortest decimal, on the coarsest grid that has one. -/
def shortest (x : Binary64) : Nat × Int :=
  let top := x.powerAbove
  ((List.range 26).findSome? fun (down : Nat) =>
    (x.gridPoint? (top - down)).map fun digits => (digits, top - down)).getD (0, 0)

def positional (digits : Nat) (power : Int) : String :=
  let text := (Nat.repr digits).toList
  match power with
  | .ofNat up => String.ofList (text ++ List.replicate up '0')
  | .negSucc down =>
    let places := down + 1
    let padded := List.replicate (places + 1 - text.length) '0' ++ text
    String.ofList (padded.take (padded.length - places) ++ '.' :: padded.drop (padded.length - places))

/-- The shortest positional text that reads back as the double: no exponent, no trailing `.0`, the
sign of zero kept. -/
def text (x : Binary64) : String :=
  let digits := if x.isZero then "0" else positional x.shortest.1 x.shortest.2
  if x.negative then "-" ++ digits else digits

end Folio.Binary64
