import Folio.Json.Numeral
import Folio.Json.Quoted
/-!
# Reading JSON

Strict JSON with at most `maxDepth` arrays and objects inside one another. Of several fields with
one key the last one counts.
-/

namespace Folio.Json

def maxDepth : Nat := 127

def isSpace (c : Char) : Bool :=
  c = ' ' || c = '\n' || c = '\t' || c = '\r'

def skipSpace (text : List Char) : List Char :=
  text.dropWhile isSpace

theorem length_skipSpace_le (text : List Char) : (skipSpace text).length ≤ text.length :=
  (List.dropWhile_sublist isSpace).length_le

theorem length_lt_of_skipSpace {text rest : List Char} {c : Char} (h : skipSpace text = c :: rest) :
    rest.length < text.length :=
  Nat.lt_of_lt_of_le (by simp [h]) (length_skipSpace_le text)

def readIdent : List Char → (text : List Char) →
    Except Fault { rest : List Char // rest.length ≤ text.length }
  | [], text => .ok ⟨text, Nat.le_refl _⟩
  | _ :: _, [] => .error (.before .endInValue [])
  | c :: word, d :: rest =>
    if c = d then do
      let ⟨left, _⟩ ← readIdent word rest
      return ⟨left, by simp; omega⟩
    else .error (.at .expectedIdent (d :: rest))

/-- A reader of one value, from the first character of a text that does not start with space. -/
abbrev ItemReader := (text : List Char) → Except Fault (Json × Rest text)

def readItems (item : ItemReader) (text : List Char) : Except Fault (List Json × Rest text) := do
  let (value, ⟨rest, _⟩) ← item text
  have hr := length_skipSpace_le rest
  match hs : skipSpace rest with
  | [] => .error (.before .endInArray [])
  | ']' :: after => return ([value], ⟨after, by simp [hs] at hr; omega⟩)
  | ',' :: after =>
    have ha := length_skipSpace_le after
    match hn : skipSpace after with
    | [] => .error (.before .endInValue [])
    | ']' :: more => .error (.at .trailingComma (']' :: more))
    | next => do
      let (values, ⟨left, _⟩) ← readItems item next
      return (value :: values, ⟨left, by simp [hs] at hr; simp [hn] at ha; omega⟩)
  | next => .error (.at .expectedArrayEnd next)
termination_by text.length
decreasing_by
  simp [hs] at hr
  simp [hn] at ha
  omega

def readArray (item : ItemReader) (text : List Char) : Except Fault (List Json × Rest text) :=
  match hs : skipSpace text with
  | [] => .error (.before .endInArray [])
  | ']' :: rest => .ok ([], ⟨rest, length_lt_of_skipSpace hs⟩)
  | next => do
    let (values, ⟨left, h⟩) ← readItems item next
    return (values, ⟨left, Nat.lt_of_lt_of_le h (hs ▸ length_skipSpace_le text)⟩)

def readFields (item : ItemReader) (text : List Char) :
    Except Fault (List (String × Json) × Rest text) := do
  let (key, ⟨afterKey, _⟩) ← readQuoted text.tail
  have hk := length_skipSpace_le afterKey
  match hs : skipSpace afterKey with
  | [] => .error (.before .endInObject [])
  | ':' :: afterColon =>
    have hv := length_skipSpace_le afterColon
    let (value, ⟨rest, _⟩) ← item (skipSpace afterColon)
    have hr := length_skipSpace_le rest
    match ht : skipSpace rest with
    | [] => .error (.before .endInObject [])
    | '}' :: after =>
      return ([(String.ofList key, value)], ⟨after, by simp_all; omega⟩)
    | ',' :: after =>
      have ha := length_skipSpace_le after
      match hn : skipSpace after with
      | [] => .error (.before .endInValue [])
      | '"' :: more => do
        let (fields, ⟨left, _⟩) ← readFields item ('"' :: more)
        return ((String.ofList key, value) :: fields, ⟨left, by
          simp [hs] at hk
          simp [ht] at hr
          simp [hn] at ha
          simp at *
          omega⟩)
      | '}' :: more => .error (.at .trailingComma ('}' :: more))
      | next => .error (.at .keyNotString next)
    | next => .error (.at .expectedObjectEnd next)
  | next => .error (.at .expectedColon next)
termination_by text.length
decreasing_by
  simp [hs] at hk
  simp [ht] at hr
  simp [hn] at ha
  simp at *
  omega

def readObject (item : ItemReader) (text : List Char) :
    Except Fault (List (String × Json) × Rest text) :=
  have ht := length_skipSpace_le text
  match hs : skipSpace text with
  | [] => .error (.before .endInObject [])
  | '}' :: rest => .ok ([], ⟨rest, by simp [hs] at ht; omega⟩)
  | '"' :: more => do
    let (fields, ⟨left, _⟩) ← readFields item ('"' :: more)
    return (fields, ⟨left, by simp_all; omega⟩)
  | next => .error (.at .keyNotString next)

def readNumber (negative : Bool) (text : List Char) : Except Fault (Json × Rest text) :=
  match hs : Numeral.scan negative text with
  | .error fault => .error fault
  | .ok (numeral, rest) =>
    match numeral.value with
    | .ok value => .ok (value, ⟨rest, Numeral.length_of_scan hs⟩)
    | .error unseen => .error ⟨.numberOutOfRange, byteCount rest + unseen⟩

/-- A value with at most `depth` arrays and objects inside one another, and the text after it. A
value at the end of the text is missing; space before it is not skipped. -/
def readValue (depth : Nat) (text : List Char) : Except Fault (Json × Rest text) :=
  match text with
  | [] => .error (.before .endInValue [])
  | c :: rest =>
    let word (letters : List Char) (value : Json) : Except Fault (Json × Rest (c :: rest)) := do
      let ⟨left, _⟩ ← readIdent letters rest
      return (value, ⟨left, by simp; omega⟩)
    match c with
    | 'n' => word ['u', 'l', 'l'] .null
    | 't' => word ['r', 'u', 'e'] (.bool true)
    | 'f' => word ['a', 'l', 's', 'e'] (.bool false)
    | '"' => do
      let (chars, ⟨left, _⟩) ← readQuoted rest
      return (.string (String.ofList chars), ⟨left, by simp; omega⟩)
    | '-' => do
      let (number, ⟨left, _⟩) ← readNumber true rest
      return (number, ⟨left, by simp; omega⟩)
    | '[' =>
      match depth with
      | 0 => .error (.at .tooDeep (c :: rest))
      | depth + 1 => do
        let (items, ⟨left, _⟩) ← readArray (readValue depth) rest
        return (.array items, ⟨left, by simp; omega⟩)
    | '{' =>
      match depth with
      | 0 => .error (.at .tooDeep (c :: rest))
      | depth + 1 => do
        let (fields, ⟨left, _⟩) ← readObject (readValue depth) rest
        return (.object (Fields.ofList fields), ⟨left, by simp; omega⟩)
    | _ =>
      if c.isDigit then readNumber false (c :: rest)
      else .error (.at .expectedValue (c :: rest))

/-- The value that a whole text stands for, with space around it. -/
def readChars (text : List Char) : Except Fault Json := do
  let (value, ⟨rest, _⟩) ← readValue maxDepth (skipSpace text)
  match skipSpace rest with
  | [] => return value
  | next => .error (.at .trailingCharacters next)

def read (text : String) : Except Fault Json :=
  readChars text.toList

end Folio.Json
