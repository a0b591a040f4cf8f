import TranslationAudit.Markup.Entity

/-! # Attributes

* `formatAttributes`: attributes as they are written within a tag.
* `readAttributesFrom`, `readTag`: the attributes in the text of a tag, in order.
* `AttributeError`: what can be wrong with them; its positions count bytes from the beginning of
  the tag's text.
-/

namespace TranslationAudit.Markup

def formatAttributes (attributes : List (String × String)) : String :=
  " ".intercalate (attributes.map fun (name, value) => name ++ "=\"" ++ escape value ++ "\"")

/-! ## Reading -/

/-- What can be wrong with the attributes of a tag. -/
inductive AttributeError where
  | expectedEquals (position : Nat)
  | expectedValue (position : Nat)
  | unquotedValue (position : Nat)
  | missingQuote (position : Nat) (quote : Char)
  | duplicate (position previous : Nat)
  | entity (error : EntityError)
deriving DecidableEq

def AttributeError.message : AttributeError → String
  | .expectedEquals n =>
    "position " ++ toString n ++ ": attribute key must be directly followed by `=` or space"
  | .expectedValue n =>
    "position " ++ toString n ++ ": `=` must be followed by an attribute value"
  | .unquotedValue n =>
    "position " ++ toString n ++ ": attribute value must be enclosed in `\"` or `'`"
  | .missingQuote n q =>
    "position " ++ toString n ++ ": missing closing quote `" ++ String.singleton q ++
      "` in attribute value"
  | .duplicate n m =>
    "position " ++ toString n ++ ": duplicated attribute, previous declaration at position " ++
      toString m
  | .entity e => e.message

/-- The blanks that markup knows. -/
def isSpace (c : Char) : Bool := c == ' ' || c == '\t' || c == '\n' || c == '\r'

/-- The name at the beginning of a text, and what follows it. A name has at least one character,
which may be any, and ends before an equals sign or a blank. -/
def cutName : List Char → List Char × List Char
  | [] => ([], [])
  | c :: r =>
    let inName (d : Char) : Bool := d ≠ '=' && !isSpace d
    (c :: r.takeWhile inName, r.dropWhile inName)

/-- The quoted value at the beginning of a text, and what follows it. A text with less to read has a
higher position, which `total` fixes. -/
def cutValue (total : Nat) (s : List Char) : Except AttributeError (List Char × List Char) :=
  match s.dropWhile isSpace with
  | [] => .error (.expectedValue total)
  | q :: r =>
    if q = '"' ∨ q = '\'' then
      match Text.cutAt? q r with
      | none => .error (.missingQuote total q)
      | some found => .ok found
    else .error (.unquotedValue (total - byteCount (q :: r)))

def afterEquals (total : Nat) (s : List Char) : Except AttributeError (List Char) :=
  match s.dropWhile isSpace with
  | '=' :: r => .ok r
  | rest => .error (.expectedEquals (total - byteCount rest))

def previous? (name : List Char) (seen : List (List Char × Nat)) : Option Nat := seen.lookup name

def cutAttribute (total : Nat) (seen : List (List Char × Nat)) (s : List Char) :
    Except AttributeError (List Char × List Char × List Char) :=
  let (name, rest) := cutName s
  match afterEquals total rest with
  | .error e => .error e
  | .ok rest =>
    match previous? name seen with
    | some m => .error (.duplicate (total - byteCount s) m)
    | none =>
      match cutValue total rest with
      | .error e => .error e
      | .ok (value, rest) => .ok (name, value, rest)

/-- Reads the attributes at the end of the text of a tag, which has `total` bytes. -/
def readAttributesFrom (total : Nat) (seen : List (List Char × Nat)) (s : List Char) :
    Except AttributeError (List (String × String)) :=
  match s.dropWhile isSpace with
  | [] => .ok []
  | c :: r =>
    match cutAttribute total seen (c :: r) with
    | .error e => .error e
    | .ok (name, value, rest) =>
      match unescape value with
      | .error e => .error (.entity e)
      | .ok value =>
        if rest.length < s.length then
          match readAttributesFrom total ((name, total - byteCount (c :: r)) :: seen) rest with
          | .error e => .error e
          | .ok others => .ok ((String.ofList name, String.ofList value) :: others)
        else .ok [(String.ofList name, String.ofList value)]
termination_by s.length

def readTag (content : List Char) : Except AttributeError (String × List (String × String)) :=
  let name := content.takeWhile fun c => !isSpace c
  match readAttributesFrom (byteCount content) [] (content.drop name.length) with
  | .error e => .error e
  | .ok attributes => .ok (String.ofList name, attributes)

end TranslationAudit.Markup
