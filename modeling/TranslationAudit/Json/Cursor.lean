/-! # Reading JSON text character by character

* `Json.Fault`: what can be wrong with a JSON text.
* `Json.Cursor`: what is left of a text, with the line and the column in bytes.
* `Json.Reader`: a computation that reads from a cursor.
-/

namespace TranslationAudit.Json

/-- What can be wrong with a JSON text. -/
inductive Fault where
  | endInList
  | endInObject
  | endInString
  | endInValue
  | expectedColon
  | expectedListEnd
  | expectedObjectEnd
  | expectedIdent
  | expectedValue
  | invalidEscape
  | invalidNumber
  | numberOutOfRange
  | controlCharacter
  | keyNotString
  | loneSurrogate
  | trailingComma
  | trailingCharacters
  | endInHexEscape
  /-- A value of another type. -/
  | invalidType (found expected : String)
  /-- A value of the right type that is not allowed. -/
  | invalidValue (found expected : String)
  | unknownVariant (name : String) (known : List String)
  | duplicateField (name : String)
deriving DecidableEq, Inhabited

def backquoted (s : String) : String := "\x60" ++ s ++ "\x60"

namespace Fault

def message : Fault → String
  | .endInList => "EOF while parsing a list"
  | .endInObject => "EOF while parsing an object"
  | .endInString => "EOF while parsing a string"
  | .endInValue => "EOF while parsing a value"
  | .expectedColon => "expected \x60:\x60"
  | .expectedListEnd => "expected \x60,\x60 or \x60]\x60"
  | .expectedObjectEnd => "expected \x60,\x60 or \x60\x7d\x60"
  | .expectedIdent => "expected ident"
  | .expectedValue => "expected value"
  | .invalidEscape => "invalid escape"
  | .invalidNumber => "invalid number"
  | .numberOutOfRange => "number out of range"
  | .controlCharacter => "control character (\\u0000-\\u001F) found while parsing a string"
  | .keyNotString => "key must be a string"
  | .loneSurrogate => "lone leading surrogate in hex escape"
  | .trailingComma => "trailing comma"
  | .trailingCharacters => "trailing characters"
  | .endInHexEscape => "unexpected end of hex escape"
  | .invalidType found expected => "invalid type: " ++ found ++ ", expected " ++ expected
  | .invalidValue found expected => "invalid value: " ++ found ++ ", expected " ++ expected
  | .unknownVariant name known =>
    "unknown variant " ++ backquoted name ++ ", expected " ++
      " or ".intercalate (known.map backquoted)
  | .duplicateField name => "duplicate field " ++ backquoted name

end Fault

/-- A fault with the place at which it shows. -/
structure Error where
  fault : Fault
  line : Nat
  column : Nat
deriving DecidableEq, Inhabited

def Error.message (e : Error) : String :=
  e.fault.message ++ " at line " ++ toString e.line ++ " column " ++ toString e.column

/-- What is left of a text. -/
structure Cursor where
  rest : List Char
  /-- The line, counted from 1. -/
  line : Nat := 1
  /-- The bytes of the line that were read. -/
  column : Nat := 0
deriving DecidableEq, Inhabited

namespace Cursor

def ofString (s : String) : Cursor := { rest := s.toList }

def next (c : Cursor) : Cursor :=
  match c.rest with
  | [] => c
  | '\n' :: r => ⟨r, c.line + 1, 0⟩
  | d :: r => ⟨r, c.line, c.column + d.utf8Size⟩

def fault (c : Cursor) (f : Fault) : Error := ⟨f, c.line, c.column⟩

/-- A fault at the first byte that follows, if there is one. -/
def faultAhead (c : Cursor) (f : Fault) : Error :=
  match c.rest with
  | [] => c.fault f
  | '\n' :: _ => ⟨f, c.line + 1, 0⟩
  | _ => ⟨f, c.line, c.column + 1⟩

end Cursor

abbrev Reader := StateT Cursor (Except Error)

namespace Reader

def fail {α : Type} (f : Fault) : Reader α := fun c => .error (c.fault f)

def failAhead {α : Type} (f : Fault) : Reader α := fun c => .error (c.faultAhead f)

def peek : Reader (Option Char) := fun c => .ok (c.rest.head?, c)

def skip : Reader Unit := fun c => .ok ((), c.next)

def read : Reader (Option Char) := fun c => .ok (c.rest.head?, c.next)

/-- The four characters that count as blank. -/
def isBlank (c : Char) : Bool := c = ' ' || c = '\t' || c = '\n' || c = '\r'

def behind (p : Char → Bool) (c : Cursor) : List Char → Cursor
  | [] => c
  | d :: r => if p d then behind p c.next r else c

def skipWhile (p : Char → Bool) : Reader Unit := fun c => .ok ((), behind p c c.rest)

/-- Skips blanks and gives the character that follows. -/
def peekToken : Reader (Option Char) := do
  skipWhile isBlank
  peek

def remaining : Reader Nat := fun c => .ok (c.rest.length, c)

end Reader

end TranslationAudit.Json
