/-!
# File names

A file name is any string of bytes. It is shown as text with each ill-formed piece replaced by the
replacement character. Names from the root down make a location.
-/

namespace Folio.Files

/-- The bytes of a file or folder name. -/
abbrev Name := List UInt8

namespace Name

def ofText (text : String) : Name :=
  text.toUTF8.data.toList

def text? (name : Name) : Option String :=
  String.fromUTF8? ⟨name.toArray⟩

theorem text?_ofText (text : String) : text? (ofText text) = some text := by
  have hv : (ByteArray.mk (ofText text).toArray) = text.toByteArray := by
    simp [ofText, String.toUTF8]
  unfold text?
  rw [hv]
  simp [String.fromUTF8?, String.fromUTF8, text.isValidUTF8]

/-- The bytes that may follow a first byte of UTF-8: the range of the second byte, and how many
continuation bytes come after that one. None for a byte that starts no longer sequence. -/
def continuation? (first : UInt8) : Option ((UInt8 × UInt8) × Nat) :=
  if 0xC2 ≤ first ∧ first ≤ 0xDF then some ((0x80, 0xBF), 0)
  else if first = 0xE0 then some ((0xA0, 0xBF), 1)
  else if first = 0xED then some ((0x80, 0x9F), 1)
  else if 0xE1 ≤ first ∧ first ≤ 0xEF then some ((0x80, 0xBF), 1)
  else if first = 0xF0 then some ((0x90, 0xBF), 2)
  else if 0xF1 ≤ first ∧ first ≤ 0xF3 then some ((0x80, 0xBF), 2)
  else if first = 0xF4 then some ((0x80, 0x8F), 2)
  else none

def followers (count : Nat) (bytes : List UInt8) : Nat :=
  ((bytes.take count).takeWhile fun b => 0x80 ≤ b && b ≤ 0xBF).length

/-- The lengths of the pieces that bytes fall into: a well-formed character each, or the start of
one that cannot go on, in which case the flag is false. -/
def pieceLength (first : UInt8) (rest : List UInt8) : Nat × Bool :=
  if first < 0x80 then (1, true)
  else match continuation? first, rest with
    | some ((low, high), more), second :: after =>
      if low ≤ second ∧ second ≤ high then
        let found := followers more after
        (2 + found, found = more)
      else (1, false)
    | _, _ => (1, false)

/-- The text of bytes, going over them piece by piece; `fuel` bounds the number of pieces. -/
def showPieces : (fuel : Nat) → List UInt8 → List Char
  | 0, _ => []
  | _, [] => []
  | fuel + 1, first :: rest =>
    let (length, good) := pieceLength first rest
    let piece := (first :: rest).take length
    let shown := match good, text? piece with
      | true, some text => text.toList
      | _, _ => ['\uFFFD']
    shown ++ showPieces fuel ((first :: rest).drop length)

def shown (name : Name) : String :=
  match text? name with
  | some text => text
  | none => String.ofList (showPieces name.length name)

end Name

def maxName : Nat := 255

def maxPath : Nat := 4095

/-- Names from the root down. The root itself is the empty location. -/
abbrev Location := List Name

end Folio.Files
