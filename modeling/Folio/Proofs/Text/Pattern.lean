import Mathlib.Data.List.Basic
/-!
# Patterns

Regular expressions of characters, alternatives and the end of a text: where they match, how they are
written, and what an engine promises that searches texts for them. Text is escaped by a backslash
before each character that would mean something else.
-/

namespace Folio

inductive Pattern where
  | empty
  | char (c : Char)
  | seq (first second : Pattern)
  | either (first second : Pattern)
  | atEnd
deriving DecidableEq, Repr

namespace Pattern

/-! ## Matches -/

/-- A pattern matches the beginning of a text and leaves the rest of it. -/
def Takes : Pattern → List Char → List Char → Prop
  | .empty, text, rest => text = rest
  | .char c, text, rest => text = c :: rest
  | .seq first second, text, rest => ∃ between, first.Takes text between ∧ second.Takes between rest
  | .either first second, text, rest => first.Takes text rest ∨ second.Takes text rest
  | .atEnd, text, rest => text = [] ∧ rest = []

def Occurs (pattern : Pattern) (text before : List Char) : Prop :=
  ∃ rest after, text = before ++ rest ∧ pattern.Takes rest after

structure Leftmost (pattern : Pattern) (text before : List Char) : Prop where
  occurs : pattern.Occurs text before
  least : ∀ other, pattern.Occurs text other → before.length ≤ other.length

def sequence (items : List Pattern) : Pattern :=
  items.foldr .seq .empty

def literal (chars : List Char) : Pattern :=
  sequence (chars.map .char)

def oneOf : List (List Char) → Pattern
  | [] => .empty
  | [word] => literal word
  | word :: next :: more => .either (literal word) (oneOf (next :: more))

theorem takes_literal {chars text rest : List Char} :
    (literal chars).Takes text rest ↔ text = chars ++ rest := by
  induction chars generalizing text with
  | nil => rfl
  | cons c chars ih =>
    constructor
    · rintro ⟨between, rfl, hrest⟩
      rw [ih.mp hrest, List.cons_append]
    · rintro rfl
      exact ⟨chars ++ rest, rfl, ih.mpr rfl⟩

theorem takes_oneOf {words : List (List Char)} {text rest : List Char} (hne : words ≠ []) :
    (oneOf words).Takes text rest ↔ ∃ word ∈ words, text = word ++ rest := by
  induction words with
  | nil => exact absurd rfl hne
  | cons word more ih =>
    cases more with
    | nil => simp [oneOf, takes_literal]
    | cons next more =>
      have hmore := ih (List.cons_ne_nil next more)
      simp [oneOf, Takes, takes_literal, hmore]

/-! ## Spelling -/

def metaCharacters : List Char :=
  ['\\', '.', '+', '*', '?', '(', ')', '|', '[', ']', '\x7b', '\x7d', '^', '$', '#', '&', '-', '~']

/-- What a stretch of a written pattern may hold: one thing, several in a row, or rows with bars
between them. -/
inductive Level where
  | item
  | row
  | choice
deriving DecidableEq, Repr

/-- How patterns are written. A bar binds loosest, and parentheses hold a choice together. -/
inductive Spells : Level → List Char → Pattern → Prop
  | plain {c : Char} : c ∉ metaCharacters → Spells .item [c] (.char c)
  | escaped {c : Char} : c ∈ metaCharacters → Spells .item ['\\', c] (.char c)
  | atEnd : Spells .item ['$'] .atEnd
  | group {text : List Char} {pattern : Pattern} : Spells .choice text pattern →
      Spells .item ('(' :: '?' :: ':' :: (text ++ [')'])) pattern
  | nil : Spells .row [] .empty
  | cons {text more : List Char} {first second : Pattern} : Spells .item text first →
      Spells .row more second → Spells .row (text ++ more) (.seq first second)
  | last {text : List Char} {pattern : Pattern} : Spells .row text pattern →
      Spells .choice text pattern
  | bar {text more : List Char} {first second : Pattern} : Spells .row text first →
      Spells .choice more second → Spells .choice (text ++ '|' :: more) (.either first second)

theorem spells_oneOf {words texts : List (List Char)}
    (h : List.Forall₂ (fun word text => Spells .row text (literal word)) words texts) :
    Spells .choice (['|'].intercalate texts) (oneOf words) := by
  induction h with
  | nil => exact .last .nil
  | @cons word text words texts hfirst hmore ih =>
    cases hmore with
    | nil => simpa [oneOf] using Spells.last hfirst
    | @cons next more words texts hnext hrest =>
      rw [List.intercalate_cons_cons, List.append_assoc]
      exact .bar hfirst ih

/-! ## Engines -/

/-- A library of regular expressions: it compiles their texts, or refuses to, and searches with the
outcome. -/
structure Engine where
  Regex : Type
  Fault : Type
  /-- Makes a text match itself within a pattern. -/
  escape : String → String
  compile : String → Except Fault Regex
  isMatch : Regex → String → Bool
  /-- The byte at which the match that is found starts. -/
  find? : Regex → String → Option Nat

/-- The engine reads the patterns above as meant, and of several matches it finds the leftmost. -/
structure Engine.FindsLeftmost (engine : Engine) : Prop where
  spells_escape : ∀ text, Spells .row (engine.escape text).toList (literal text.toList)
  isMatch_iff : ∀ {source regex pattern}, engine.compile source = .ok regex →
    Spells .choice source.toList pattern → ∀ text : String,
    engine.isMatch regex text = true ↔ ∃ before, pattern.Occurs text.toList before
  find?_eq_some_iff : ∀ {source regex pattern}, engine.compile source = .ok regex →
    Spells .choice source.toList pattern → ∀ (text : String) (start : Nat),
    engine.find? regex text = some start ↔
      ∃ before, pattern.Leftmost text.toList before ∧ start = (String.ofList before).utf8ByteSize

end Pattern

end Folio
