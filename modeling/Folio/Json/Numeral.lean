import Folio.Json.Basic
import Folio.Json.Fault
import Folio.Text.Digits
/-!
# JSON numbers

The written parts of a number and its value. Integers from `-2 ^ 63` to `2 ^ 64 - 1` keep their
value. All others, `-0` included, and everything written with a point or an exponent become doubles
by two roundings: the digits that fit into 64 bits are rounded to a double, which is then multiplied
or divided by a power of ten that is itself rounded.
-/

namespace Folio.Json

/-- A number as written: its digits before and after the point, and its exponent with the sign. -/
structure Numeral where
  negative : Bool
  whole : List Char
  fraction : Option (List Char)
  exponent : Option (Bool × List Char)
deriving DecidableEq, Repr

namespace Numeral

def scanExponent : List Char → Except Fault (Option (Bool × List Char) × List Char)
  | [] => .ok (none, [])
  | c :: rest =>
    if c = 'e' ∨ c = 'E' then
      let down := rest.head? = some '-'
      let digits := if down ∨ rest.head? = some '+' then rest.tail else rest
      match digits with
      | [] => .error (.before .endInValue [])
      | d :: more =>
        if d.isDigit then
          .ok (some (down, digits.takeWhile Char.isDigit), digits.dropWhile Char.isDigit)
        else .error (.at .invalidNumber (d :: more))
    else .ok (none, c :: rest)

def scan (negative : Bool) : List Char → Except Fault (Numeral × List Char)
  | [] => .error (.before .endInValue [])
  | c :: rest =>
    if !c.isDigit then .error (.at .invalidNumber (c :: rest))
    else if c = '0' ∧ (rest.head?.any Char.isDigit) then .error (.at .invalidNumber rest)
    else
      let whole := c :: rest.takeWhile Char.isDigit
      match rest.dropWhile Char.isDigit with
      | '.' :: after =>
        if after.takeWhile Char.isDigit = [] then
          .error (.at (if after = [] then .endInValue else .invalidNumber) after)
        else do
          let (exponent, left) ← scanExponent (after.dropWhile Char.isDigit)
          return (⟨negative, whole, some (after.takeWhile Char.isDigit), exponent⟩, left)
      | after => do
        let (exponent, left) ← scanExponent after
        return (⟨negative, whole, none, exponent⟩, left)

theorem length_dropWhile_le (p : Char → Bool) (text : List Char) :
    (text.dropWhile p).length ≤ text.length :=
  (List.dropWhile_sublist p).length_le

theorem length_of_scanExponent {text left : List Char} {exponent : Option (Bool × List Char)}
    (h : scanExponent text = .ok (exponent, left)) : left.length ≤ text.length := by
  cases text with
  | nil => simp_all [scanExponent]
  | cons c rest =>
    simp only [scanExponent] at h
    split at h
    · split at h
      · simp at h
      · rename_i d more hd
        split at h
        · simp only [Except.ok.injEq, Prod.mk.injEq] at h
          obtain ⟨-, rfl⟩ := h
          refine Nat.le_trans (length_dropWhile_le _ _) ?_
          split
          · simp
            omega
          · simp
        · simp at h
    · simp_all

theorem length_of_scan {negative : Bool} {text left : List Char} {numeral : Numeral}
    (h : scan negative text = .ok (numeral, left)) : left.length < text.length := by
  cases text with
  | nil => simp [scan] at h
  | cons c rest =>
    have hd := length_dropWhile_le Char.isDigit rest
    simp only [scan] at h
    split at h
    · simp at h
    split at h
    · simp at h
    split at h
    · rename_i after hr
      split at h
      · simp at h
      · cases he : scanExponent (after.dropWhile Char.isDigit) with
        | error fault => simp [he, bind, Except.bind] at h
        | ok found =>
          obtain ⟨exponent, left'⟩ := found
          simp [he, bind, Except.bind, pure, Except.pure] at h
          obtain ⟨-, rfl⟩ := h
          have := length_of_scanExponent he
          have := length_dropWhile_le Char.isDigit after
          simp only [hr, List.length_cons] at *
          omega
    · cases he : scanExponent (rest.dropWhile Char.isDigit) with
      | error fault => simp [he, bind, Except.bind] at h
      | ok found =>
        obtain ⟨exponent, left'⟩ := found
        simp [he, bind, Except.bind, pure, Except.pure] at h
        obtain ⟨-, rfl⟩ := h
        have := length_of_scanExponent he
        simp only [List.length_cons]
        omega

/-- The largest integer that a number's digits are gathered into. -/
def maxDigits : Nat := Nat.pow 2 64 - 1

def maxExponent : Nat := Nat.pow 2 31 - 1

/-- Appends digits to a number as long as it stays within `limit`; the number, and how many digits
were left over. -/
def gather (limit number : Nat) : List Char → Nat × Nat
  | [] => (number, 0)
  | c :: rest =>
    let next := number * 10 + Text.digitValue c
    if limit < next then (number, rest.length + 1) else gather limit next rest

/-- A double divided by `10 ^ power`, in steps of at most 308 decimal places. -/
def divTen (x : Binary64) (power : Nat) : Option Binary64 :=
  if x.isZero then some x
  else if power ≤ 308 then do x.div (← Binary64.ofRatio false (Nat.pow 10 power) 1)
  else do divTen (← x.div (← Binary64.ofRatio false (Nat.pow 10 308) 1)) (power - 308)
termination_by power

/-- The double for `digits * 10 ^ power`, rounded at each step; none if it is out of range. -/
def toDouble (negative : Bool) (digits : Nat) (power : Int) : Option Binary64 := do
  let x ← Binary64.ofRatio negative digits 1
  match power with
  | .ofNat up =>
    if x.isZero then some x
    else if up ≤ 308 then x.mul (← Binary64.ofRatio false (Nat.pow 10 up) 1)
    else none
  | .negSucc down => divTen x (down + 1)

def integer (negative : Bool) (number : Nat) : Option Json :=
  if negative then
    if 1 ≤ number ∧ number ≤ Nat.pow 2 63 then some (.int (-(number : Int)))
    else (Binary64.ofRatio true number 1).map .float
  else some (.int number)

/-- The value of a number. Out of range, it is the count of digits not yet looked at when that
became certain. -/
def value (numeral : Numeral) : Except Nat Json :=
  let (whole, dropped) := gather maxDigits 0 numeral.whole
  let fraction := numeral.fraction.getD []
  let (digits, unused) := gather maxDigits whole fraction
  let power : Int := (dropped : Int) - ((fraction.length - unused : Nat) : Int)
  let double (power : Int) : Except Nat Json :=
    match toDouble numeral.negative digits power with
    | some x => .ok (.float x)
    | none => .error 0
  match numeral.exponent with
  | none =>
    if numeral.fraction.isNone && dropped = 0 then
      match integer numeral.negative whole with
      | some number => .ok number
      | none => .error 0
    else double power
  | some (down, exponent) =>
    match gather maxExponent 0 exponent with
    | (number, 0) => double (if down then power - number else power + number)
    | (_, left + 1) =>
      if digits = 0 ∨ down then .ok (.float (.zero numeral.negative)) else .error left

end Numeral

end Folio.Json
