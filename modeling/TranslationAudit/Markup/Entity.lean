import TranslationAudit.Text.Blank

/-! # Entities

* `escape`: text with the characters `&`, `<`, `>` and `"` written as entities.
* `unescape`: text with its entities read, by name or by the number of a character.
* `EntityError`: what can be wrong with an entity; its offsets count bytes.
-/

namespace TranslationAudit.Markup

/-! ## Writing -/

def escapeChar (c : Char) : List Char :=
  if c = '&' then "&amp;".toList
  else if c = '<' then "&lt;".toList
  else if c = '>' then "&gt;".toList
  else if c = '"' then "&quot;".toList
  else [c]

def escape (s : String) : String := String.ofList (s.toList.flatMap escapeChar)

/-! ## Reading -/

/-- What can be wrong with the number of a character. -/
inductive CharacterError where
  | signed
  | noDigits
  | invalidDigit
  | tooLarge
  | zero
  | noCharacter (code : Nat)
deriving DecidableEq

def CharacterError.message : CharacterError → String
  | .signed => "unexpected number sign"
  | .noDigits => "cannot parse integer from empty string"
  | .invalidDigit => "invalid digit found in string"
  | .tooLarge => "number too large to fit in target type"
  | .zero => "0x0 character is not permitted in XML"
  | .noCharacter code => "`" ++ toString code ++ "` is not a valid codepoint"

/-- What can be wrong with an entity. -/
inductive EntityError where
  /-- No semicolon before the next ampersand or the end. -/
  | unterminated (start stop : Nat)
  | unknown (start stop : Nat) (name : String)
  | character (error : CharacterError)
deriving DecidableEq

def rangeText (start stop : Nat) : String := toString start ++ ".." ++ toString stop

def EntityError.message : EntityError → String
  | .unterminated start stop =>
    "Error while escaping character at range " ++ rangeText start stop ++
      ": Cannot find ';' after '&'"
  | .unknown start stop name =>
    "at " ++ rangeText start stop ++ ": unrecognized entity `" ++ name ++ "`"
  | .character e => "invalid character reference: " ++ e.message

def byteCount (s : List Char) : Nat := s.foldr (fun c n => c.utf8Size + n) 0

def digitValue? (radix : Nat) (c : Char) : Option Nat :=
  let v :=
    if c.isDigit then c.toNat - '0'.toNat
    else if 'a' ≤ c ∧ c ≤ 'f' then c.toNat - 'a'.toNat + 10
    else if 'A' ≤ c ∧ c ≤ 'F' then c.toNat - 'A'.toNat + 10
    else radix
  if v < radix then some v else none

def readDigits (radix : Nat) : Nat → List Char → Except CharacterError Nat
  | n, [] => .ok n
  | n, c :: r =>
    match digitValue? radix c with
    | none => .error .invalidDigit
    | some d =>
      if radix * n + d < UInt32.size then readDigits radix (radix * n + d) r else .error .tooLarge

def readNumber (radix : Nat) (s : List Char) : Except CharacterError Nat :=
  match s with
  | [] => .error .noDigits
  | c :: _ => if c = '+' ∨ c = '-' then .error .signed else readDigits radix 0 s

def characterOf (code : Nat) : Except CharacterError Char :=
  if code = 0 then .error .zero
  else if code.isValidChar then .ok (Char.ofNat code)
  else .error (.noCharacter code)

/-- The character named after `#`: a decimal number, or `x` and a hexadecimal one. -/
def readCharacter (s : List Char) : Except CharacterError Char :=
  match s with
  | 'x' :: r => (readNumber 16 r).bind characterOf
  | _ => (readNumber 10 s).bind characterOf

def named : List (String × Char) :=
  [("lt", '<'), ("gt", '>'), ("amp", '&'), ("apos", '\''), ("quot", '"')]

def readEntity (start : Nat) (name : List Char) : Except EntityError Char :=
  match name with
  | '#' :: number =>
    match readCharacter number with
    | .ok c => .ok c
    | .error e => .error (.character e)
  | _ =>
    match named.lookup (String.ofList name) with
    | some c => .ok c
    | none => .error (.unknown start (start + byteCount name) (String.ofList name))

/-- Reads the pieces of a text that follow its ampersands. The first piece follows an ampersand that
ends at the offset `start`, and the text has `total` bytes. -/
def readPieces (total : Nat) : Nat → List (List Char) → Except EntityError (List Char)
  | _, [] => .ok []
  | start, piece :: rest =>
    match Text.cutAt? ';' piece with
    | none => .error (.unterminated (start - 1) total)
    | some (name, plain) =>
      match readEntity start name with
      | .error e => .error e
      | .ok c =>
        match readPieces total (start + byteCount piece + 1) rest with
        | .error e => .error e
        | .ok s => .ok (c :: plain ++ s)

def unescape (s : List Char) : Except EntityError (List Char) :=
  match Text.split (· = '&') s with
  | [] => .ok []
  | plain :: pieces =>
    match readPieces (byteCount s) (byteCount plain + 1) pieces with
    | .error e => .error e
    | .ok r => .ok (plain ++ r)

end TranslationAudit.Markup
