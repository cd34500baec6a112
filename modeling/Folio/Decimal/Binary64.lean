/-!
# Double-precision numbers

Finite binary64 numbers as a sign, a mantissa and a power of two, with every operation given by one
rounding of an exact ratio. Nothing here is a machine operation, so all of it can be computed with
and reasoned about.
-/

namespace Folio

/-- The number `± mantissa * 2 ^ exponent`. Numbers made by `ofRatio` have a mantissa below `2 ^ 53`
and an exponent from -1074 to 971, the mantissa being at least `2 ^ 52` unless the exponent is
-1074. -/
structure Binary64 where
  negative : Bool
  mantissa : Nat
  exponent : Int
deriving DecidableEq, Repr, Inhabited

namespace Binary64

def zero (negative : Bool) : Binary64 := ⟨negative, 0, -1074⟩

def isZero (x : Binary64) : Bool := x.mantissa = 0

/-- The nearest integer to `num / den`; a half goes to the even neighbour. -/
def nearest (num den : Nat) : Nat :=
  let low := num / den
  let twice := 2 * (num % den)
  if den < twice ∨ (twice = den ∧ low % 2 = 1) then low + 1 else low

def scaled (num den : Nat) (exponent : Int) : Nat × Nat :=
  match exponent with
  | .ofNat up => (num, den * Nat.pow 2 up)
  | .negSucc down => (num * Nat.pow 2 (down + 1), den)

/-- The exponent at which a ratio other than zero has a mantissa of 53 bits, kept in range. -/
def exponentOf (num den : Nat) : Int :=
  let guess : Int := (Nat.log2 num : Int) - (Nat.log2 den : Int) - 52
  let (n, d) := scaled num den guess
  max (-1074) (if n < d * Nat.pow 2 52 then guess - 1 else guess)

/-- The double nearest to `± num / den`, or none if that is out of range. -/
def ofRatio (negative : Bool) (num den : Nat) : Option Binary64 :=
  if num = 0 then some (zero negative)
  else
    let exponent := exponentOf num den
    let (n, d) := scaled num den exponent
    let mantissa := nearest n d
    let (mantissa, exponent) :=
      if mantissa = Nat.pow 2 53 then (Nat.pow 2 52, exponent + 1) else (mantissa, exponent)
    if 971 < exponent then none else some ⟨negative, mantissa, exponent⟩

/-- The double nearest to `± digits * 10 ^ power`, or none if that is out of range. Powers far out
of range are not computed. -/
def ofDecimal (negative : Bool) (digits : Nat) (power : Int) : Option Binary64 :=
  if digits = 0 then some (zero negative)
  else match power with
    | .ofNat up => if 400 < up then none else ofRatio negative (digits * Nat.pow 10 up) 1
    | .negSucc down =>
      if 400 + Nat.log2 digits < down then some (zero negative)
      else ofRatio negative digits (Nat.pow 10 (down + 1))

def mul (x y : Binary64) : Option Binary64 :=
  match x.exponent + y.exponent with
  | .ofNat up => ofRatio (x.negative != y.negative) (x.mantissa * y.mantissa * Nat.pow 2 up) 1
  | .negSucc down => ofRatio (x.negative != y.negative) (x.mantissa * y.mantissa) (Nat.pow 2 (down + 1))

/-- The rounded quotient; none also when the divisor is zero. -/
def div (x y : Binary64) : Option Binary64 :=
  if y.isZero then none
  else match x.exponent - y.exponent with
    | .ofNat up => ofRatio (x.negative != y.negative) (x.mantissa * Nat.pow 2 up) y.mantissa
    | .negSucc down => ofRatio (x.negative != y.negative) x.mantissa (y.mantissa * Nat.pow 2 (down + 1))

end Binary64

end Folio
