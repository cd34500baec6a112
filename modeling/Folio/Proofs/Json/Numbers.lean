import Folio.Proofs.Json.Strings
import Mathlib.Algebra.Group.Int.Defs
/-!
# Numbers in JSON

A number is read as far as it goes on, and what is read is just what a number is written as. The
digits of an integer within the limits of 64 bits stand for that integer.
-/

namespace Folio.Json

/-- No number goes on with this text. -/
def Stops (rest : List Char) : Prop :=
  ∀ c ∈ rest.head?, c.isDigit = false ∧ c ≠ '.' ∧ c ≠ 'e' ∧ c ≠ 'E'

theorem stops_nil : Stops [] :=
  nofun

theorem Stops.head {c : Char} {rest : List Char} (h : Stops (c :: rest)) :
    c.isDigit = false ∧ c ≠ '.' ∧ c ≠ 'e' ∧ c ≠ 'E' :=
  h c rfl

theorem span_digits {digits rest : List Char} (hd : ∀ c ∈ digits, c.isDigit = true)
    (hr : ∀ c ∈ rest.head?, c.isDigit = false) :
    (digits ++ rest).takeWhile Char.isDigit = digits ∧
      (digits ++ rest).dropWhile Char.isDigit = rest := by
  rw [List.takeWhile_append_of_pos hd, List.dropWhile_append_of_pos hd]
  cases rest with
  | nil => exact ⟨List.append_nil digits, rfl⟩
  | cons c rest =>
    have hc := hr c rfl
    rw [List.takeWhile_cons_of_neg (by simp [hc]), List.dropWhile_cons_of_neg (by simp [hc])]
    exact ⟨List.append_nil digits, rfl⟩

theorem isDigits_takeWhile {c : Char} {rest : List Char} (hc : c.isDigit = true) :
    IsDigits ((c :: rest).takeWhile Char.isDigit) := by
  refine ⟨?_, List.all_eq_true.mp List.all_takeWhile⟩
  rw [List.takeWhile_cons_of_pos hc]
  exact List.cons_ne_nil _ _

namespace Numeral

variable {exponent : Option (Bool × List Char)} {fraction : Option (List Char)}
  {piece text left rest : List Char} {numeral : Numeral} {negative : Bool}

/-! ## Exponents -/

theorem exists_sign (text : List Char) : ∃ sign,
    (sign, decide (text.head? = some '-')) ∈ [([], false), (['+'], false), (['-'], true)] ∧
      text = sign ++ if text.head? = some '-' ∨ text.head? = some '+' then text.tail else text := by
  cases text with
  | nil => exact ⟨[], by decide, rfl⟩
  | cons c rest =>
    by_cases hminus : c = '-'
    · subst hminus
      exact ⟨['-'], by simp, rfl⟩
    · by_cases hplus : c = '+'
      · subst hplus
        exact ⟨['+'], by simp, rfl⟩
      · exact ⟨[], by simp [hminus], by simp [hminus, hplus]⟩

theorem exponentText_of_scan (h : scanExponent text = .ok (exponent, left)) :
    ∃ piece, ExponentText exponent piece ∧ text = piece ++ left := by
  cases text with
  | nil =>
    cases h
    exact ⟨[], .absent, rfl⟩
  | cons mark rest =>
    rw [scanExponent] at h
    split at h
    · rename_i hmark
      obtain ⟨sign, hsign, hrest⟩ := exists_sign rest
      dsimp only at h
      revert h hrest
      generalize (if rest.head? = some '-' ∨ rest.head? = some '+' then rest.tail else rest) = digits
      intro h hrest
      split at h
      · cases h
      · rename_i d more
        split at h
        · rename_i hd
          cases h
          refine ⟨_, .present hmark hsign (isDigits_takeWhile hd), ?_⟩
          rw [hrest, List.cons_append, List.append_assoc, List.takeWhile_append_dropWhile]
        · cases h
    · cases h
      exact ⟨[], .absent, rfl⟩

theorem scanExponent_append (h : ExponentText exponent piece) (hs : Stops rest) :
    scanExponent (piece ++ rest) = .ok (exponent, rest) := by
  cases h with
  | absent =>
    cases rest with
    | nil => rfl
    | cons c rest =>
      obtain ⟨-, -, he, hE⟩ := hs.head
      rw [List.nil_append, scanExponent, if_neg (not_or.mpr ⟨he, hE⟩)]
  | @present mark sign digits down hmark hsign hd =>
    obtain ⟨htake, hdrop⟩ := span_digits hd.2 fun c hc => (hs c hc).1
    obtain ⟨d, more, rfl, hdigit⟩ := hd.exists_cons
    have hminus : d ≠ '-' := by
      rintro rfl
      cases hdigit
    have hplus : d ≠ '+' := by
      rintro rfl
      cases hdigit
    rw [List.cons_append] at htake hdrop
    simp only [List.mem_cons, Prod.mk.injEq, List.not_mem_nil, or_false] at hsign
    rcases hsign with ⟨rfl, rfl⟩ | ⟨rfl, rfl⟩ | ⟨rfl, rfl⟩ <;>
      simp [scanExponent, hmark, hminus, hplus, hdigit, htake, hdrop]

/-! ## Numerals -/

theorem isWhole_takeWhile {c : Char} {rest : List Char} (hc : c.isDigit = true)
    (hz : ¬ (c = '0' ∧ (rest.head?.any Char.isDigit) = true)) :
    IsWhole (c :: rest.takeWhile Char.isDigit) := by
  have hd : IsDigits ((c :: rest).takeWhile Char.isDigit) := isDigits_takeWhile hc
  rw [List.takeWhile_cons_of_pos hc] at hd
  refine ⟨hd, fun h => ?_⟩
  obtain rfl : c = '0' := Option.some.inj h
  cases rest with
  | nil => rfl
  | cons d rest =>
    have hd : ¬ d.isDigit = true := fun hd => hz ⟨rfl, hd⟩
    rw [List.takeWhile_cons_of_neg hd]

theorem unsigned_of_scan (h : scan negative text = .ok (numeral, left)) :
    numeral.negative = negative ∧ ∃ piece, numeral.Unsigned piece ∧ text = piece ++ left := by
  cases text with
  | nil => cases h
  | cons c rest =>
    rw [scan] at h
    split at h
    · cases h
    · rename_i hc
      split at h
      · cases h
      · rename_i hz
        have hwhole := isWhole_takeWhile (by simpa using hc) hz
        have hspan := List.takeWhile_append_dropWhile (p := Char.isDigit) (l := rest)
        dsimp only at h
        split at h
        · rename_i after hafter
          rw [hafter] at hspan
          split at h
          · cases h
          · rename_i hne
            obtain ⟨⟨exponent, left'⟩, he, h⟩ := bind_eq_ok.mp h
            cases h
            obtain ⟨piece, hp, hrest⟩ := exponentText_of_scan he
            refine ⟨rfl, _, ⟨hwhole, _, _, .present ⟨hne, List.all_eq_true.mp List.all_takeWhile⟩, hp,
              rfl⟩, ?_⟩
            have hspan' := List.takeWhile_append_dropWhile (p := Char.isDigit) (l := after)
            rw [hrest] at hspan'
            conv_lhs => rw [← hspan, ← hspan']
            simp only [List.cons_append, List.append_assoc]
        · obtain ⟨⟨exponent, left'⟩, he, h⟩ := bind_eq_ok.mp h
          cases h
          obtain ⟨piece, hp, hrest⟩ := exponentText_of_scan he
          refine ⟨rfl, _, ⟨hwhole, _, _, .absent, hp, rfl⟩, ?_⟩
          rw [hrest] at hspan
          conv_lhs => rw [← hspan]
          simp only [List.cons_append, List.nil_append, List.append_assoc]

theorem head_exponentText (h : ExponentText exponent piece) (hs : Stops rest) :
    ∀ c ∈ (piece ++ rest).head?, c.isDigit = false ∧ c ≠ '.' := by
  cases h with
  | absent => exact fun c hc => ⟨(hs c hc).1, (hs c hc).2.1⟩
  | present hmark hsign hd =>
    intro c hc
    cases hc
    rcases hmark with rfl | rfl <;> decide

theorem not_any_isDigit {c : Char} {more after : List Char}
    (hz : (c :: more).head? = some '0' → c :: more = ['0'])
    (ha : ∀ d ∈ after.head?, d.isDigit = false) :
    ¬ (c = '0' ∧ ((more ++ after).head?.any Char.isDigit) = true) := by
  rintro ⟨rfl, hany⟩
  obtain rfl : more = [] := (List.cons.inj (hz rfl)).2
  cases after with
  | nil => cases hany
  | cons d after => exact Bool.false_ne_true ((ha d rfl).symm.trans hany)

/-- A number is read to its end where no number goes on. -/
theorem scan_append (h : numeral.Unsigned piece) (hs : Stops rest) :
    scan numeral.negative (piece ++ rest) = .ok (numeral, rest) := by
  obtain ⟨negative, whole, fraction, exponent⟩ := numeral
  obtain ⟨⟨hd, hz⟩, fractionText, exponentText, hf, he, rfl⟩ := h
  dsimp only at hd hz hf he ⊢
  obtain ⟨c, more, rfl, hc⟩ := hd.exists_cons
  have hmore : ∀ d ∈ more, d.isDigit = true := fun d hm => hd.2 d (List.mem_cons_of_mem c hm)
  have hexponent := scanExponent_append he hs
  have hend := head_exponentText he hs
  cases hf with
  | absent =>
    have hnext := fun d hm => (hend d hm).1
    obtain ⟨htake, hdrop⟩ := span_digits hmore hnext
    rw [List.nil_append, List.cons_append, List.cons_append, List.append_assoc, scan,
      if_neg (by simp [hc]), if_neg (not_any_isDigit hz hnext), htake, hdrop]
    dsimp only
    split
    · rename_i after hafter
      exact absurd rfl (hend '.' (by rw [hafter]; rfl)).2
    · rw [hexponent]
      rfl
  | @present digits hdigits =>
    have hnext : ∀ d ∈ ('.' :: (digits ++ (exponentText ++ rest))).head?, d.isDigit = false := by
      rintro d ⟨⟩
      rfl
    obtain ⟨htake, hdrop⟩ := span_digits hmore hnext
    obtain ⟨htake', hdrop'⟩ := span_digits hdigits.2 fun d hm => (hend d hm).1
    have htext : c :: more ++ ('.' :: digits ++ exponentText) ++ rest
        = c :: (more ++ '.' :: (digits ++ (exponentText ++ rest))) := by simp
    rw [htext, scan, if_neg (by simp [hc]), if_neg (not_any_isDigit hz hnext), htake, hdrop]
    simp only [htake', hdrop', if_neg hdigits.1, hexponent]
    rfl

end Numeral

variable {text piece rest : List Char} {value : Json} {negative : Bool}

theorem numeral_of_readNumber (h : Leaves (readNumber negative text) value rest) :
    ∃ (numeral : Numeral) (piece : List Char), numeral.negative = negative ∧
      numeral.Unsigned piece ∧ numeral.value = .ok value ∧ text = piece ++ rest := by
  rw [readNumber] at h
  split at h
  · exact absurd h not_leaves_error
  · rename_i numeral left hscan
    split at h
    · rename_i found hvalue
      obtain ⟨rfl, rfl⟩ := leaves_ok.mp h
      obtain ⟨hn, piece, hp, htext⟩ := Numeral.unsigned_of_scan hscan
      exact ⟨numeral, piece, hn, hp, hvalue, htext⟩
    · exact absurd h not_leaves_error

theorem leaves_readNumber {numeral : Numeral} (h : numeral.Unsigned piece)
    (hv : numeral.value = .ok value) (hs : Stops rest) :
    Leaves (readNumber numeral.negative (piece ++ rest)) value rest := by
  have hscan := Numeral.scan_append h hs
  rw [readNumber]
  split
  · rename_i hfault
    cases hscan.symm.trans hfault
  · rename_i found left hfound
    cases hscan.symm.trans hfound
    rw [hv]
    exact leaves_ok.mpr ⟨rfl, rfl⟩

/-! ## Integers -/

namespace Numeral

theorem le_ofDigitChars (number : Nat) (digits : List Char) :
    number ≤ Nat.ofDigitChars 10 digits number := by
  induction digits generalizing number with
  | nil => exact Nat.le_refl number
  | cons c rest ih =>
    rw [Nat.ofDigitChars_cons]
    exact Nat.le_trans (by omega) (ih _)

theorem gather_eq_ofDigitChars {limit number : Nat} {digits : List Char}
    (h : Nat.ofDigitChars 10 digits number ≤ limit) :
    gather limit number digits = (Nat.ofDigitChars 10 digits number, 0) := by
  induction digits generalizing number with
  | nil => rfl
  | cons c rest ih =>
    rw [Nat.ofDigitChars_cons] at h ⊢
    have hnext : number * 10 + Text.digitValue c = 10 * number + (c.toNat - '0'.toNat) := by
      rw [Nat.mul_comm, Text.digitValue]
    rw [gather, hnext, if_neg (Nat.not_lt.mpr (Nat.le_trans (le_ofDigitChars _ rest) h)), ih h]

theorem head?_toDigits {number : Nat} (h : number ≠ 0) :
    (Nat.toDigits 10 number).head? ≠ some '0' := by
  induction number using Nat.strongRecOn with
  | ind number ih =>
    by_cases hlt : number < 10
    · have hall : ∀ digit < 10, digit ≠ 0 → [digit.digitChar].head? ≠ some '0' := by decide
      rw [Nat.toDigits_of_lt_base hlt]
      exact hall number hlt h
    · have hle := Nat.le_of_not_lt hlt
      rw [Nat.toDigits_of_base_le (by decide) hle,
        List.head?_append_of_ne_nil _ Nat.toDigits_ne_nil]
      exact ih _ (Nat.div_lt_self (by omega) (by decide)) (by omega)

theorem isWhole_toDigits (number : Nat) : IsWhole (Nat.toDigits 10 number) := by
  refine ⟨⟨Nat.toDigits_ne_nil, fun c hc => Nat.isDigit_of_mem_toDigits (by decide) (by decide) hc⟩,
    fun h => ?_⟩
  by_cases hz : number = 0
  · subst hz
    rfl
  · exact absurd h (head?_toDigits hz)

def ofInt (value : Int) : Numeral where
  negative := decide (value < 0)
  whole := Nat.toDigits 10 value.natAbs
  fraction := none
  exponent := none

theorem unsigned_ofInt (value : Int) : (ofInt value).Unsigned (Nat.toDigits 10 value.natAbs) :=
  ⟨isWhole_toDigits _, [], [], .absent, .absent, by simp [ofInt]⟩

theorem integer_ofInt {value : Int} (hlow : -(2 ^ 63) ≤ value) :
    integer (decide (value < 0)) value.natAbs = some (.int value) := by
  rw [integer]
  by_cases hn : value < 0
  · have hle : value.natAbs ≤ Nat.pow 2 63 := by
      show value.natAbs ≤ 2 ^ 63
      omega
    have habs : -(value.natAbs : Int) = value := by omega
    rw [if_pos (decide_eq_true hn), if_pos ⟨by omega, hle⟩, habs]
  · have habs : (value.natAbs : Int) = value := by omega
    rw [if_neg (by simpa using hn), habs]

theorem value_ofInt {value : Int} (hlow : -(2 ^ 63) ≤ value) (hhigh : value < 2 ^ 64) :
    (ofInt value).value = .ok (.int value) := by
  have hle : Nat.ofDigitChars 10 (Nat.toDigits 10 value.natAbs) 0 ≤ maxDigits := by
    rw [Nat.ofDigitChars_ten_toDigits]
    show value.natAbs ≤ 2 ^ 64 - 1
    omega
  have hgather := gather_eq_ofDigitChars hle
  rw [Nat.ofDigitChars_ten_toDigits] at hgather
  simp [Numeral.value, ofInt, hgather, integer_ofInt hlow]

end Numeral

theorem toList_toString (value : Int) :
    (toString value).toList = signed (decide (value < 0)) (Nat.toDigits 10 value.natAbs) := by
  rw [Int.toString_eq_repr, Int.repr_eq_if, signed]
  by_cases hn : value < 0
  · have habs : (-value).toNat = value.natAbs := by omega
    rw [if_neg (by omega), if_pos (decide_eq_true hn), String.toList_append, Nat.toList_repr, habs]
    rfl
  · have habs : value.toNat = value.natAbs := by omega
    rw [if_pos (by omega), if_neg (by simpa using hn), Nat.toList_repr, habs]

theorem scalarText_int {value : Int} (hlow : -(2 ^ 63) ≤ value) (hhigh : value < 2 ^ 64) :
    ScalarText (.int value) (toString value).toList := by
  rw [toList_toString]
  exact .number (Numeral.unsigned_ofInt value) (Numeral.value_ofInt hlow hhigh)

end Folio.Json
