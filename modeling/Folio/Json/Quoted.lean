import Folio.Json.Fault
import Folio.Text.Digits
/-!
# JSON strings

The inside of a string between its quotes: reading it, with all escapes, and writing it with the
fewest.
-/

namespace Folio.Json

/-- What remains of a text after something was read from its start. -/
abbrev Rest (text : List Char) := { rest : List Char // rest.length < text.length }

def hexFour? (a b c d : Char) : Option Nat := do
  return (((← Text.hexValue? a) * 16 + (← Text.hexValue? b)) * 16 + (← Text.hexValue? c)) * 16
    + (← Text.hexValue? d)

/-- The four hexadecimal digits at the start of a text. Four bytes are looked at, whatever
characters they belong to. -/
def readHex (text : List Char) : Except Fault (Nat × Rest text) :=
  match text with
  | a :: b :: c :: d :: rest =>
    match hexFour? a b c d with
    | some number => .ok (number, ⟨rest, by simp; omega⟩)
    | none => .error ⟨.invalidEscape, byteCount text - 4⟩
  | _ =>
    if byteCount text < 4 then .error (.before .endInString [])
    else .error ⟨.invalidEscape, byteCount text - 4⟩

/-- A character by its number, after its letter `u`; beyond the first plane it takes a pair of
surrogates. -/
def readUnicode (text : List Char) : Except Fault (Char × Rest text) := do
  let (number, ⟨rest, h⟩) ← readHex text
  if 0xDC00 ≤ number ∧ number ≤ 0xDFFF then .error (.before .loneSurrogate rest)
  else if 0xD800 ≤ number ∧ number ≤ 0xDBFF then
    match rest, h with
    | '\\' :: 'u' :: after, h =>
      let (low, ⟨left, hl⟩) ← readHex after
      if 0xDC00 ≤ low ∧ low ≤ 0xDFFF then
        return (Char.ofNat (0x10000 + (number - 0xD800) * 0x400 + (low - 0xDC00)),
          ⟨left, by simp at h; omega⟩)
      else .error (.before .loneSurrogate left)
    | ['\\'], _ => .error (.before .endInString [])
    | '\\' :: after, _ => .error (.at .endOfHexEscape after)
    | [], _ => .error (.before .endInString [])
    | next, _ => .error (.at .endOfHexEscape next)
  else return (Char.ofNat number, ⟨rest, h⟩)

def readEscape (text : List Char) : Except Fault (Char × Rest text) :=
  match text with
  | [] => .error (.before .endInString [])
  | c :: rest =>
    let simple (c : Char) : Except Fault (Char × Rest (c :: rest)) := .ok (c, ⟨rest, by simp⟩)
    match c with
    | '"' => simple '"'
    | '\\' => simple '\\'
    | '/' => simple '/'
    | 'b' => simple '\x08'
    | 'f' => simple '\x0c'
    | 'n' => simple '\n'
    | 'r' => simple '\r'
    | 't' => simple '\t'
    | 'u' => do
      let (c, ⟨left, h⟩) ← readUnicode rest
      return (c, ⟨left, by simp; omega⟩)
    | _ => .error (.at .invalidEscape (c :: rest))

/-- The inside of a string up to its closing quote, which is read too. -/
def readQuoted (text : List Char) : Except Fault (List Char × Rest text) :=
  match text with
  | [] => .error (.before .endInString [])
  | '"' :: rest => .ok ([], ⟨rest, by simp⟩)
  | '\\' :: rest => do
    let (c, ⟨after, _⟩) ← readEscape rest
    let (chars, ⟨left, _⟩) ← readQuoted after
    return (c :: chars, ⟨left, by simp; omega⟩)
  | c :: rest =>
    if c.toNat < 0x20 then .error (.before .controlCharacter rest)
    else do
      let (chars, ⟨left, _⟩) ← readQuoted rest
      return (c :: chars, ⟨left, by simp; omega⟩)
termination_by text.length
decreasing_by
  · simp
    omega
  · simp

def hexDigit (value : Nat) : Char :=
  if value < 10 then Char.ofNat ('0'.toNat + value) else Char.ofNat ('a'.toNat + (value - 10))

def quoteChar (c : Char) : List Char :=
  if c = '"' then ['\\', '"']
  else if c = '\\' then ['\\', '\\']
  else if c.toNat < 0x20 then
    ['\\', 'u', '0', '0', hexDigit (c.toNat / 16), hexDigit (c.toNat % 16)]
  else [c]

/-- A string with its quotes: quotes and backslashes take a backslash, control characters are given
by number, all else stands for itself. -/
def quote (text : List Char) : List Char :=
  '"' :: text.flatMap quoteChar ++ ['"']

end Folio.Json
