/-!
# Faults in JSON text

What can be wrong with a JSON text and where. A fault remembers how many bytes of the text were
still unread when it was found; line and column follow from that.
-/

namespace Folio.Json

inductive Cause where
  | endInValue
  | endInArray
  | endInObject
  | endInString
  | expectedValue
  | expectedIdent
  | expectedColon
  | expectedArrayEnd
  | expectedObjectEnd
  | keyNotString
  | trailingComma
  | trailingCharacters
  | invalidNumber
  | numberOutOfRange
  | invalidEscape
  | endOfHexEscape
  | loneSurrogate
  | controlCharacter
  | tooDeep
deriving DecidableEq, Repr

def Cause.message : Cause → String
  | endInValue => "EOF while parsing a value"
  | endInArray => "EOF while parsing a list"
  | endInObject => "EOF while parsing an object"
  | endInString => "EOF while parsing a string"
  | expectedValue => "expected value"
  | expectedIdent => "expected ident"
  | expectedColon => "expected `:`"
  | expectedArrayEnd => "expected `,` or `]`"
  | expectedObjectEnd => "expected `,` or `\x7d`"
  | keyNotString => "key must be a string"
  | trailingComma => "trailing comma"
  | trailingCharacters => "trailing characters"
  | invalidNumber => "invalid number"
  | numberOutOfRange => "number out of range"
  | invalidEscape => "invalid escape"
  | endOfHexEscape => "unexpected end of hex escape"
  | loneSurrogate => "lone leading surrogate in hex escape"
  | controlCharacter => "control character (\\u0000-\\u001F) found while parsing a string"
  | tooDeep => "recursion limit exceeded"

structure Fault where
  cause : Cause
  /-- Bytes of the text after the place of the fault. -/
  unread : Nat
deriving DecidableEq, Repr

def byteCount : List Char → Nat
  | [] => 0
  | c :: rest => c.utf8Size + byteCount rest

/-- Line from one and column, in bytes, of the place after the first `bytes` bytes. A place inside
a character counts only the bytes before it. -/
def position (bytes : Nat) (text : List Char) : Nat × Nat :=
  go 1 0 bytes text
where
  go (line column bytes : Nat) : List Char → Nat × Nat
    | [] => (line, column + bytes)
    | c :: rest =>
      if bytes < c.utf8Size then (line, column + bytes)
      else if c = '\n' then go (line + 1) 0 (bytes - c.utf8Size) rest
      else go line (column + c.utf8Size) (bytes - c.utf8Size) rest

def Fault.message (fault : Fault) (text : List Char) : String :=
  let (line, column) := position (byteCount text - fault.unread) text
  fault.cause.message ++ " at line " ++ toString line ++ " column " ++ toString column

/-- A fault found before `rest`, all that precedes it having been read. -/
def Fault.before (cause : Cause) (rest : List Char) : Fault :=
  ⟨cause, byteCount rest⟩

/-- A fault at the first byte of `rest`, which counts as seen; at the end of the text there is none
to see. -/
def Fault.at (cause : Cause) (rest : List Char) : Fault :=
  ⟨cause, byteCount rest - 1⟩

end Folio.Json
