import TranslationAudit.Decimal.Shortest
import TranslationAudit.Json.Cursor
import TranslationAudit.Text.Quoted

/-! # Reading JSON values of expected types

A text is read into the type that is expected of it, so a value of another type is refused where
it stands, before the rest of the text is looked at.

* `readString`, `readBool`, `readNatural`, `readOption`, `readVariant`, `readList`: single values.
* `readStruct`: an object with known members, or an array of their values in order. Unknown members
  are skipped and missing ones keep their defaults.
* `readDocument`: a whole text.
-/

namespace TranslationAudit.Json.Reader

/-! ## Strings -/

def hexValue? (c : Char) : Option Nat :=
  if c.isDigit then some (c.toNat - '0'.toNat)
  else if 'a' ≤ c && c ≤ 'f' then some (c.toNat - 'a'.toNat + 10)
  else if 'A' ≤ c && c ≤ 'F' then some (c.toNat - 'A'.toNat + 10)
  else none

/-- The cursor some bytes further on, or nothing if there are not so many bytes. -/
def afterBytes? : Nat → Cursor → List Char → Option Cursor
  | 0, c, _ => some c
  | _ + 1, _, [] => none
  | n + 1, c, d :: r =>
    if d.utf8Size ≤ n + 1 then afterBytes? (n + 1 - d.utf8Size) c.next r
    else some { c with column := c.column + (n + 1) }

def atEnd (c : Cursor) : List Char → Cursor
  | [] => c
  | _ :: r => atEnd c.next r

def hexEscape : Reader Nat := fun c =>
  match afterBytes? 4 c c.rest with
  | none => .error ((atEnd c c.rest).fault .endInString)
  | some after =>
    match (c.rest.take 4).mapM hexValue? with
    | some digits => .ok (digits.foldl (fun n d => 16 * n + d) 0, after)
    | none => .error (after.fault .invalidEscape)

/-- Reads a character that must follow the first half of a pair. -/
def pairChar (expected : Char) : Reader Unit := do
  match ← peek with
  | none => fail .endInString
  | some c => if c = expected then skip else failAhead .endInHexEscape

/-- Reads the rest of an escape `\uXXXX`. Two halves of a pair stand for one character. -/
def unicodeEscape : Reader Char := do
  let n ← hexEscape
  if 0xDC00 ≤ n && n ≤ 0xDFFF then fail .loneSurrogate
  else if n < 0xD800 || 0xDBFF < n then pure (Char.ofNat n)
  else
    pairChar '\\'
    pairChar 'u'
    let m ← hexEscape
    if m < 0xDC00 || 0xDFFF < m then fail .loneSurrogate
    else pure (Char.ofNat ((n - 0xD800) * 0x400 + (m - 0xDC00) + 0x10000))

def shortEscape? : Char → Option Char
  | '"' => some '"'
  | '\\' => some '\\'
  | '/' => some '/'
  | 'b' => some '\x08'
  | 'f' => some '\x0c'
  | 'n' => some '\n'
  | 'r' => some '\r'
  | 't' => some '\t'
  | _ => none

/-- Reads an escape after its backslash, by a reader for the form `\uXXXX`. -/
def escape (unicode : Reader Char) : Reader Char := do
  match ← peek with
  | none => fail .endInString
  | some 'u' =>
    skip
    unicode
  | some c =>
    match shortEscape? c with
    | some d =>
      skip
      pure d
    | none => failAhead .invalidEscape

def stringBody : Nat → List Char → Reader String
  | 0, _ => fail .endInString
  | fuel + 1, acc => do
    match ← peek with
    | none => fail .endInString
    | some '"' =>
      skip
      pure (String.ofList acc.reverse)
    | some '\\' =>
      skip
      let c ← escape unicodeEscape
      stringBody fuel (c :: acc)
    | some c =>
      skip
      if c.toNat < 0x20 then fail .controlCharacter else stringBody fuel (c :: acc)

def stringRest : Reader String := do
  stringBody ((← remaining) + 1) []

/-- Skips a string after its opening quote. Halves of pairs need not match. -/
def skipBody : Nat → Reader Unit
  | 0 => fail .endInString
  | fuel + 1 => do
    match ← peek with
    | none => fail .endInString
    | some '"' => skip
    | some '\\' =>
      skip
      let _ ← escape (do let _ ← hexEscape; pure ' ')
      skipBody fuel
    | some c => if c.toNat < 0x20 then fail .controlCharacter else skip *> skipBody fuel

def skipString : Reader Unit := do
  skipBody ((← remaining) + 1)

/-! ## Names and numbers -/

def ident : List Char → Reader Unit
  | [] => pure ()
  | c :: r => do
    match ← peek with
    | none => fail .endInValue
    | some d => if c = d then skip *> ident r else failAhead .expectedIdent

/-- A number as it was read. -/
inductive Number where
  | natural (n : Nat)
  | negative (n : Nat)
  | float (f : Float)

/-- The words for a number. Floats are positional between `10 ^ -5` and `10 ^ 16`. -/
def Number.text : Number → String
  | .natural n => "integer " ++ backquoted (toString n)
  | .negative n => "integer " ++ backquoted ("-" ++ toString n)
  | .float f => "floating point " ++ backquoted (Decimal.floatText ⟨4, 16⟩ f)

/-- Naturals that do not fit into 64 bits are read as floats. -/
def wordLimit : Nat := UInt64.size

/-- Multiplies by a power of ten, or divides by one, in steps that floats can hold. -/
def scale : Nat → Float → Int → Option Float
  | 0, f, _ => some f
  | fuel + 1, f, e =>
    if e.natAbs ≤ 308 then
      let power := Float.ofScientific 1 false e.natAbs
      if e < 0 then some (f / power)
      else if (f * power).isInf then none else some (f * power)
    else if f == 0.0 then some f
    else if 0 ≤ e then none
    else scale fuel (f / Float.ofScientific 1 false 308) (e + 308)

def float (positive : Bool) (significand : Nat) (e : Int) : Reader Number := do
  match scale 5 (UInt64.ofNat significand).toFloat e with
  | none => fail .numberOutOfRange
  | some f => pure (.float (if positive then f else -f))

def digits : Reader (List Nat) := fun c =>
  let ds := c.rest.takeWhile Char.isDigit
  .ok (ds.map fun d => d.toNat - '0'.toNat, behind Char.isDigit c c.rest)

/-- Adds digits to a significand while it fits into 64 bits, and counts the digits that are left
over. -/
def accumulate : Nat → List Nat → Nat × List Nat
  | s, [] => (s, [])
  | s, d :: r => if 10 * s + d < wordLimit then accumulate (10 * s + d) r else (s, d :: r)

/-- Reads the digits of an exponent. Exponents of more than 31 bits are out of range, unless the
number is zero or tiny. -/
def exponentDigits (significand : Nat) (upward : Bool) : Nat → Nat → Reader (Option Nat)
  | 0, e => pure (some e)
  | fuel + 1, e => do
    match ← peek with
    | none => pure (some e)
    | some c =>
      if c.isDigit then
        skip
        let e := 10 * e + (c.toNat - '0'.toNat)
        if 2 * e < UInt32.size then exponentDigits significand upward fuel e
        else if significand ≠ 0 && upward then fail .numberOutOfRange
        else do
          skipWhile Char.isDigit
          pure none
      else pure (some e)

def exponent (positive : Bool) (significand : Nat) (start : Int) : Reader Number := do
  skip
  let sign ← peek
  if sign = some '+' || sign = some '-' then skip
  match ← peek with
  | none => fail .endInValue
  | some c =>
    if c.isDigit then
      match ← exponentDigits significand (sign ≠ some '-') ((← remaining) + 1) 0 with
      | none => pure (.float (if positive then 0.0 else -0.0))
      | some e => float positive significand (if sign = some '-' then start - e else start + e)
    else failAhead .invalidNumber

def isExponentLetter (c : Option Char) : Bool := c = some 'e' || c = some 'E'

def floatRest (positive : Bool) (significand : Nat) (e : Int) : Reader Number := do
  if isExponentLetter (← peek) then exponent positive significand e
  else float positive significand e

def decimals (positive : Bool) (significand : Nat) (e : Int) : Reader Number := do
  skip
  let ds ← digits
  if ds.isEmpty then
    match ← peek with
    | none => fail .endInValue
    | some _ => failAhead .invalidNumber
  else
    let (s, left) := accumulate significand ds
    floatRest positive s (e - Int.ofNat (ds.length - left.length))

def number (positive : Bool) : Reader Number := do
  match ← peek with
  | none => fail .endInValue
  | some c =>
    if !c.isDigit then failAhead .invalidNumber
    else
      let leadingZero := c = '0'
      if leadingZero then skip
      if leadingZero && (← peek).any Char.isDigit then failAhead .invalidNumber
      else
        let ds ← digits
        let (s, left) := accumulate 0 ds
        let e := Int.ofNat left.length
        let after ← peek
        if after = some '.' then decimals positive s e
        else if isExponentLetter after || !left.isEmpty then floatRest positive s e
        else if positive then pure (.natural s)
        else if s = 0 || wordLimit < 2 * s then pure (.float (-(UInt64.ofNat s).toFloat))
        else pure (.negative s)

/-! ## Values of other types -/

def mismatch {α : Type} (expected : String) : Reader α := do
  match ← peek with
  | some 'n' =>
    skip
    ident ['u', 'l', 'l']
    fail (.invalidType "null" expected)
  | some 't' =>
    skip
    ident ['r', 'u', 'e']
    fail (.invalidType ("boolean " ++ backquoted "true") expected)
  | some 'f' =>
    skip
    ident ['a', 'l', 's', 'e']
    fail (.invalidType ("boolean " ++ backquoted "false") expected)
  | some '"' =>
    skip
    let s ← stringRest
    fail (.invalidType ("string " ++ Text.quoted s) expected)
  | some '[' => fail (.invalidType "sequence" expected)
  | some '\x7b' => fail (.invalidType "map" expected)
  | some '-' =>
    skip
    let n ← number false
    fail (.invalidType n.text expected)
  | some c =>
    if c.isDigit then
      let n ← number true
      fail (.invalidType n.text expected)
    else failAhead .expectedValue
  | none => failAhead .expectedValue

/-- Skips blanks and gives the character with which a value begins. -/
def valueStart : Reader Char := do
  match ← peekToken with
  | none => failAhead .endInValue
  | some c => pure c

/-! ## Skipping values -/

/-- A list or an object that is open. -/
inductive Frame where
  | list
  | object
deriving DecidableEq

namespace Frame

def closing : Frame → Char
  | .list => ']'
  | .object => '\x7d'

def endFault : Frame → Fault
  | .list => .endInList
  | .object => .endInObject

def separatorFault : Frame → Fault
  | .list => .expectedListEnd
  | .object => .expectedObjectEnd

end Frame

/-- What comes next while a value is skipped. -/
inductive Stage where
  | value
  | opened
  | after
deriving DecidableEq

def colon : Reader Unit := do
  match ← peekToken with
  | none => failAhead .endInObject
  | some c => if c = ':' then skip else failAhead .expectedColon

def skipName : Frame → Reader Unit
  | .list => pure ()
  | .object => do
    match ← peekToken with
    | none => failAhead .endInObject
    | some c => if c = '"' then skip *> skipString *> colon else failAhead .keyNotString

def skipDigits : Reader Unit := do
  let ds ← digits
  if ds.isEmpty then failAhead .invalidNumber

/-- Skips an exponent if there is one. -/
def skipExponent : Reader Unit := do
  if isExponentLetter (← peek) then
    skip
    let sign ← peek
    if sign = some '+' || sign = some '-' then skip
    skipDigits

def skipNumber : Reader Unit := do
  let c ← peek
  if c = some '0' then
    skip
    if (← peek).any Char.isDigit then failAhead .invalidNumber
  else skipDigits
  if (← peek) = some '.' then
    skip
    skipDigits
  skipExponent

def skipAtom (c : Char) : Reader Unit :=
  if c = 'n' then skip *> ident ['u', 'l', 'l']
  else if c = 't' then skip *> ident ['r', 'u', 'e']
  else if c = 'f' then skip *> ident ['a', 'l', 's', 'e']
  else if c = '-' then skip *> skipNumber
  else if c.isDigit then skipNumber
  else if c = '"' then skip *> skipString
  else failAhead .expectedValue

/-- Skips the rest of a value within open lists and objects, the innermost first. -/
def skipFrom : Nat → Stage → List Frame → Reader Unit
  | 0, _, _ => fail .endInValue
  | fuel + 1, .value, frames => do
    let c ← valueStart
    if c = '[' then skip *> skipFrom fuel .opened (.list :: frames)
    else if c = '\x7b' then skip *> skipFrom fuel .opened (.object :: frames)
    else skipAtom c *> skipFrom fuel .after frames
  | _ + 1, .opened, [] => pure ()
  | fuel + 1, .opened, f :: frames => do
    match ← peekToken with
    | none => failAhead f.endFault
    | some c =>
      if c = f.closing then skip *> skipFrom fuel .after frames
      else skipName f *> skipFrom fuel .value (f :: frames)
  | _ + 1, .after, [] => pure ()
  | fuel + 1, .after, f :: frames => do
    match ← peekToken with
    | none => failAhead f.endFault
    | some c =>
      if c = f.closing then skip *> skipFrom fuel .after frames
      else if c = ',' then skip *> skipName f *> skipFrom fuel .value (f :: frames)
      else failAhead f.separatorFault

def skipValue : Reader Unit := do
  skipFrom (2 * (← remaining) + 2) .value []

/-! ## Single values -/

def readString : Reader String := do
  if (← valueStart) = '"' then
    skip
    stringRest
  else mismatch "a string"

def readBool : Reader Bool := do
  let c ← valueStart
  if c = 't' then
    skip
    ident ['r', 'u', 'e']
    pure true
  else if c = 'f' then
    skip
    ident ['a', 'l', 's', 'e']
    pure false
  else mismatch "a boolean"

def readNatural (expected : String) (limit : Nat) : Reader Nat := do
  let c ← valueStart
  let n ← if c = '-' then skip *> number false
    else if c.isDigit then number true else mismatch expected
  match n with
  | .natural n =>
    if n < limit then pure n else fail (.invalidValue (Number.natural n).text expected)
  | .negative n => fail (.invalidValue (Number.negative n).text expected)
  | .float f => fail (.invalidType (Number.float f).text expected)

def readOption {α : Type} (value : Reader α) : Reader (Option α) := do
  if (← peekToken) = some 'n' then
    skip
    ident ['u', 'l', 'l']
    pure none
  else some <$> value

def variantName {α : Type} (known : List (String × α)) : Reader α := do
  if (← valueStart) = '"' then
    skip
    let name ← stringRest
    match known.lookup name with
    | some a => pure a
    | none => fail (.unknownVariant name (known.map Prod.fst))
  else mismatch "variant identifier"

/-- Reads one of some names, or an object with the name as its only member and `null` as its
value. -/
def readVariant {α : Type} (known : List (String × α)) : Reader α := do
  match ← valueStart with
  | '"' => variantName known
  | '\x7b' =>
    skip
    let a ← variantName known
    colon
    if (← valueStart) = 'n' then
      skip
      ident ['u', 'l', 'l']
    else mismatch "unit"
    match ← peekToken with
    | none => fail .endInObject
    | some c =>
      if c = '\x7d' then
        skip
        pure a
      else fail .expectedValue
  | _ => failAhead .expectedValue

/-! ## Lists -/

/-- Whether another item follows in a list, and reads the comma before it. -/
def hasItem (first : Bool) : Reader Bool := do
  match ← peekToken with
  | none => failAhead .endInList
  | some ']' => pure false
  | some c =>
    if first then pure true
    else if c = ',' then
      skip
      match ← peekToken with
      | none => failAhead .endInValue
      | some ']' => failAhead .trailingComma
      | some _ => pure true
    else failAhead .expectedListEnd

def items {α : Type} (item : Reader α) : Nat → Bool → Reader (List α)
  | 0, _ => fail .endInList
  | fuel + 1, first => do
    if ← hasItem first then
      let a ← item
      let rest ← items item fuel false
      pure (a :: rest)
    else pure []

def readList {α : Type} (item : Reader α) : Reader (List α) := do
  if (← valueStart) = '[' then
    skip
    let as ← items item ((← remaining) + 1) true
    skip
    pure as
  else mismatch "a sequence"

/-! ## Structures -/

/-- A member of a structure, and how it is read and set. -/
structure Member (σ : Type) where
  name : String
  set : Reader (σ → σ)

def member {σ α : Type} (name : String) (value : Reader α) (set : α → σ → σ) : Member σ :=
  ⟨name, set <$> value⟩

/-- Reads the values of members in order, as far as there are items. -/
def membersInOrder {σ : Type} : List (Member σ) → Bool → σ → Reader σ
  | [], _, s => pure s
  | m :: ms, first, s => do
    if ← hasItem first then membersInOrder ms false ((← m.set) s) else pure s

def endList : Reader Unit := do
  match ← peekToken with
  | none => failAhead .endInList
  | some ']' => skip
  | some ',' =>
    skip
    if (← peekToken) = some ']' then failAhead .trailingComma else failAhead .trailingCharacters
  | some _ => failAhead .trailingCharacters

/-- Whether another member follows in an object, and reads the comma before it. -/
def hasMember (first : Bool) : Reader Bool := do
  let c ← peekToken
  if c = some '\x7d' then pure false
  else
    let start ←
      if first then pure c
      else if c = some ',' then
        skip
        peekToken
      else if c = none then pure none
      else failAhead .expectedObjectEnd
    match start with
    | none => failAhead (if c = none then .endInObject else .endInValue)
    | some '"' => pure true
    | some '\x7d' => failAhead .trailingComma
    | some _ => failAhead .keyNotString

/-- Refuses a member that came before. The place is where the object could go on. -/
def refuseDuplicate {α : Type} (name : String) : Reader α := do
  if (← peekToken) = some '\x7d' then skip
  fail (.duplicateField name)

/-- Reads the members of an object. `seen` are the known ones that came before. -/
def membersByName {σ : Type} (members : List (Member σ)) :
    Nat → List String → Bool → σ → Reader σ
  | 0, _, _, _ => fail .endInObject
  | fuel + 1, seen, first, s => do
    if ← hasMember first then
      skip
      let name ← stringRest
      match members.find? (·.name = name) with
      | none =>
        colon
        skipValue
        membersByName members fuel seen false s
      | some m =>
        if name ∈ seen then refuseDuplicate name
        else
          colon
          membersByName members fuel (name :: seen) false ((← m.set) s)
    else pure s

/-- Reads a structure. Members that do not come keep their values in `defaults`. -/
def readStruct {σ : Type} (name : String) (members : List (Member σ)) (defaults : σ) :
    Reader σ := do
  match ← valueStart with
  | '[' =>
    skip
    let s ← membersInOrder members true defaults
    endList
    pure s
  | '\x7b' =>
    skip
    let s ← membersByName members ((← remaining) + 1) [] true defaults
    skip
    pure s
  | _ => mismatch ("struct " ++ name)

/-- Reads a whole text. -/
def readDocument {α : Type} (value : Reader α) (text : String) : Except Error α :=
  let all : Reader α := do
    let a ← value
    match ← peekToken with
    | none => pure a
    | some _ => failAhead .trailingCharacters
  (all.run (.ofString text)).map Prod.fst

end TranslationAudit.Json.Reader
