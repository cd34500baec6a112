import Folio.Json.Printer
import Folio.Json.Reader
import Mathlib.Data.List.Forall2
/-!
# The grammar of JSON

Which texts stand for which values, said without reading them. A text may spell its value in many
ways: with space between its parts, with escapes for any character, with several fields for one key.
-/

namespace Folio.Json

def Space (text : List Char) : Prop :=
  ∀ c ∈ text, isSpace c = true

/-! ## Strings -/

def HexText (number : Nat) (text : List Char) : Prop :=
  ∃ a b c d, text = [a, b, c, d] ∧ hexFour? a b c d = some number

def escapeLetters : List (Char × Char) :=
  [('"', '"'), ('\\', '\\'), ('/', '/'), ('b', '\x08'), ('f', '\x0c'), ('n', '\n'), ('r', '\r'),
    ('t', '\t')]

/-- What stands for a character after a backslash: a letter, the number of the character, or the two
surrogates of one beyond the first plane. -/
inductive EscapeText (c : Char) : List Char → Prop
  | letter {letter : Char} : (letter, c) ∈ escapeLetters → EscapeText c [letter]
  | number {digits : List Char} : HexText c.toNat digits → EscapeText c ('u' :: digits)
  | pair {high low : Nat} {digits more : List Char} : HexText high digits → HexText low more →
      0xD800 ≤ high → high ≤ 0xDBFF → 0xDC00 ≤ low → low ≤ 0xDFFF →
      c.toNat = 0x10000 + (high - 0xD800) * 0x400 + (low - 0xDC00) →
      EscapeText c ('u' :: (digits ++ '\\' :: 'u' :: more))

inductive CharText (c : Char) : List Char → Prop
  | plain : c ≠ '"' → c ≠ '\\' → 0x20 ≤ c.toNat → CharText c [c]
  | escape {text : List Char} : EscapeText c text → CharText c ('\\' :: text)

def QuotedText (chars text : List Char) : Prop :=
  ∃ pieces, List.Forall₂ CharText chars pieces ∧ text = '"' :: (pieces.flatten ++ ['"'])

/-! ## Numbers -/

def IsDigits (text : List Char) : Prop :=
  text ≠ [] ∧ ∀ c ∈ text, c.isDigit = true

/-- The digits before the point, with a zero in front only if it is the only one. -/
def IsWhole (text : List Char) : Prop :=
  IsDigits text ∧ (text.head? = some '0' → text = ['0'])

inductive FractionText : Option (List Char) → List Char → Prop
  | absent : FractionText none []
  | present {digits : List Char} : IsDigits digits → FractionText (some digits) ('.' :: digits)

inductive ExponentText : Option (Bool × List Char) → List Char → Prop
  | absent : ExponentText none []
  | present {mark : Char} {sign digits : List Char} {down : Bool} : mark = 'e' ∨ mark = 'E' →
      (sign, down) ∈ [([], false), (['+'], false), (['-'], true)] → IsDigits digits →
      ExponentText (some (down, digits)) (mark :: (sign ++ digits))

/-- A number after its sign. -/
def Numeral.Unsigned (numeral : Numeral) (text : List Char) : Prop :=
  IsWhole numeral.whole ∧ ∃ fraction exponent, FractionText numeral.fraction fraction ∧
    ExponentText numeral.exponent exponent ∧ text = numeral.whole ++ (fraction ++ exponent)

def signed (negative : Bool) (text : List Char) : List Char :=
  if negative then '-' :: text else text

/-! ## Values -/

/-- Values with nothing inside. -/
inductive ScalarText : Json → List Char → Prop
  | null : ScalarText .null ['n', 'u', 'l', 'l']
  | true : ScalarText (.bool true) ['t', 'r', 'u', 'e']
  | false : ScalarText (.bool false) ['f', 'a', 'l', 's', 'e']
  | number {numeral : Numeral} {value : Json} {text : List Char} : numeral.Unsigned text →
      numeral.value = .ok value → ScalarText value (signed numeral.negative text)
  | string {text : String} {quoted : List Char} : QuotedText text.toList quoted →
      ScalarText (.string text) quoted

section Parts

variable {α : Type}

def Padded (spells : α → List Char → Prop) (value : α) (text : List Char) : Prop :=
  ∃ before inner after, Space before ∧ Space after ∧ spells value inner ∧
    text = before ++ (inner ++ after)

/-- One after the other with commas between them; space alone if there are none. -/
def Listed (spells : α → List Char → Prop) : List α → List Char → Prop
  | [], text => Space text
  | value :: rest, text => ∃ pieces, List.Forall₂ (Padded spells) (value :: rest) pieces ∧
      text = separate pieces

end Parts

def FieldText (spells : Json → List Char → Prop) (field : String × Json) (text : List Char) : Prop :=
  ∃ key before after inner, QuotedText field.1.toList key ∧ Space before ∧ Space after ∧
    spells field.2 inner ∧ text = key ++ (before ++ ':' :: (after ++ inner))

/-- Arrays and objects of values that are spelled in a given way. -/
inductive CompoundText (spells : Json → List Char → Prop) : Json → List Char → Prop
  | array {items : List Json} {text : List Char} : Listed spells items text →
      CompoundText spells (.array items) ('[' :: (text ++ [']']))
  | object {fields : List (String × Json)} {text : List Char} :
      Listed (FieldText spells) fields text →
      CompoundText spells (.object (Fields.ofList fields)) ('\x7b' :: (text ++ ['\x7d']))

/-- A text of a value with at most `depth` arrays and objects inside one another. -/
def Spells : (depth : Nat) → Json → List Char → Prop
  | 0, value, text => ScalarText value text
  | depth + 1, value, text => ScalarText value text ∨ CompoundText (Spells depth) value text

def IsDocument (value : Json) (text : String) : Prop :=
  Padded (Spells maxDepth) value text.toList

/-! ## How texts begin -/

theorem IsDigits.exists_cons {text : List Char} (h : IsDigits text) :
    ∃ c rest, text = c :: rest ∧ c.isDigit = true := by
  obtain ⟨hne, hd⟩ := h
  obtain ⟨c, rest, rfl⟩ := List.exists_cons_of_ne_nil hne
  exact ⟨c, rest, rfl, hd c List.mem_cons_self⟩

/-- The characters that a value can begin with. -/
def Begins (c : Char) : Prop :=
  c ∈ ['n', 't', 'f', '"', '-', '[', '\x7b'] ∨ c.isDigit = true

theorem Begins.isSpace {c : Char} (h : Begins c) : isSpace c = false := by
  cases hs : Json.isSpace c with
  | false => rfl
  | true =>
    have hc : c = ' ' ∨ c = '\n' ∨ c = '\t' ∨ c = '\r' := by
      simpa [Json.isSpace, or_assoc] using hs
    revert h
    rcases hc with rfl | rfl | rfl | rfl <;> unfold Begins <;> decide

theorem Begins.ne_bracket {c : Char} (h : Begins c) : c ≠ ']' := by
  rintro rfl
  revert h
  unfold Begins
  decide

theorem ScalarText.begins {value : Json} {text : List Char} (h : ScalarText value text) :
    ∃ c rest, text = c :: rest ∧ Begins c := by
  cases h with
  | null => exact ⟨_, _, rfl, .inl (by decide)⟩
  | true => exact ⟨_, _, rfl, .inl (by decide)⟩
  | false => exact ⟨_, _, rfl, .inl (by decide)⟩
  | @number numeral _ text hn _ =>
    rw [signed]
    split
    · exact ⟨_, _, rfl, .inl (by decide)⟩
    · obtain ⟨⟨hw, -⟩, fraction, exponent, -, -, rfl⟩ := hn
      obtain ⟨c, rest, hc, hd⟩ := hw.exists_cons
      exact ⟨c, _, by rw [hc, List.cons_append], .inr hd⟩
  | string hq =>
    obtain ⟨pieces, -, rfl⟩ := hq
    exact ⟨_, _, rfl, .inl (by decide)⟩

theorem Spells.begins {depth : Nat} {value : Json} {text : List Char} (h : Spells depth value text) :
    ∃ c rest, text = c :: rest ∧ Begins c := by
  cases depth with
  | zero => exact ScalarText.begins h
  | succ depth =>
    rcases h with h | h
    · exact h.begins
    · cases h with
      | array _ => exact ⟨_, _, rfl, .inl (by decide)⟩
      | object _ => exact ⟨_, _, rfl, .inl (by decide)⟩

end Folio.Json
