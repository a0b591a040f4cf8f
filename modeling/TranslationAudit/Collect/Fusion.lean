import TranslationAudit.Collect.Position
import TranslationAudit.Message.Reference
import TranslationAudit.Message.Resolve

/-! # References in Fusion files

Calls are found by fixed tokens and the balanced argument lists after them. An inline call has its
arguments in order: identifier, fallback, placeholders, source and package. A fluent call has an
identifier and gets the rest from method calls after it.

* `cutCall?`: the balanced argument list at the beginning of a text.
* `splitArguments`, `literal?`, `placeholders`: the arguments and what they mean.
* `inlineCalls`, `fluentCalls`: the calls of a token with their positions.
* `collectFusion`: the references of a file: the inline calls of each token, then the fluent ones.
-/

namespace TranslationAudit.Fusion

/-! ## Argument lists -/

def isQuote (c : Char) : Bool := c == '\'' || c == '"'

/-- Blanks between the parts of a call. -/
def isSpace (c : Char) : Bool :=
  c == ' ' || c == '\t' || c == '\n' || c == '\x0c' || c == '\r'

/-- Reads to the parenthesis that closes `depth + 1` open ones. Parentheses in quotes do not count;
`quote` is the quote that is open. The depth is counted without bound: it differs from a signed
number of 32 bits behind 2 ^ 31 open parentheses only. -/
def cutBalanced? : Option Char → Nat → List Char → Option (List Char × List Char)
  | _, _, [] => none
  | some q, depth, c :: r =>
    if c = '\\' then
      match r with
      | [] => none
      | d :: t => (cutBalanced? (some q) depth t).map fun (a, b) => (c :: d :: a, b)
    else
      (cutBalanced? (if c = q then none else some q) depth r).map fun (a, b) => (c :: a, b)
  | none, depth, c :: r =>
    if isQuote c then (cutBalanced? (some c) depth r).map fun (a, b) => (c :: a, b)
    else if c = '(' then (cutBalanced? none (depth + 1) r).map fun (a, b) => (c :: a, b)
    else if c = ')' then
      match depth with
      | 0 => some ([], r)
      | d + 1 => (cutBalanced? none d r).map fun (a, b) => (c :: a, b)
    else (cutBalanced? none depth r).map fun (a, b) => (c :: a, b)

/-- The argument list at the beginning of a text, after blanks, and what follows it. -/
def cutCall? (s : List Char) : Option (List Char × List Char) :=
  match s.dropWhile isSpace with
  | '(' :: r => cutBalanced? none 0 r
  | _ => none

/-- Splits at the commas outside quotes and brackets. There is always a last piece. -/
def splitCommas : Option Char → Nat → List Char → List Char × List (List Char)
  | _, _, [] => ([], [])
  | some q, depth, c :: r =>
    if c = '\\' then
      match r with
      | [] => ([c], [])
      | d :: t =>
        let (piece, rest) := splitCommas (some q) depth t
        (c :: d :: piece, rest)
    else
      let (piece, rest) := splitCommas (if c = q then none else some q) depth r
      (c :: piece, rest)
  | none, depth, c :: r =>
    if c = ',' && depth = 0 then
      let (piece, rest) := splitCommas none 0 r
      ([], piece :: rest)
    else
      let quote := if isQuote c then some c else none
      let depth :=
        if c = '(' ∨ c = '{' ∨ c = '[' then depth + 1
        else if c = ')' ∨ c = '}' ∨ c = ']' then depth - 1
        else depth
      let (piece, rest) := splitCommas quote depth r
      (c :: piece, rest)

/-- The arguments of a list, trimmed. A blank list has none. -/
def splitArguments (s : List Char) : List (List Char) :=
  let (piece, rest) := splitCommas none 0 s
  let parts := (piece :: rest).map Text.trim
  if parts = [[]] then [] else parts

/-! ## Literals -/

def controlEscapes : List (Char × Char) :=
  [('n', '\n'), ('t', '\t'), ('r', '\r'), ('a', '\x07'), ('v', '\x0b'), ('b', '\x08'),
   ('f', '\x0c')]

def hexValue? (c : Char) : Option Nat :=
  if c.isDigit then some (c.toNat - '0'.toNat)
  else if 'a' ≤ c ∧ c ≤ 'f' then some (c.toNat - 'a'.toNat + 10)
  else if 'A' ≤ c ∧ c ≤ 'F' then some (c.toNat - 'A'.toNat + 10)
  else none

/-- What a backslash before a character and a rest stands for, and how many characters behind the
backslash it takes. `\x` takes up to two digits and is an `x` without any; a backslash before any
other character is dropped. -/
def readEscape (c : Char) (rest : List Char) : Char × Nat :=
  if c = 'x' then
    match rest[0]?.bind hexValue?, rest[1]?.bind hexValue? with
    | some m, some n => (Char.ofNat (16 * m + n), 3)
    | some m, none => (Char.ofNat m, 2)
    | none, _ => ('x', 1)
  else ((controlEscapes.lookup c).getD c, 1)

/-- Resolves backslash escapes behind some characters that an escape before them has taken. A
backslash at the end is dropped. -/
def unescapeFrom : Nat → List Char → List Char
  | _, [] => []
  | taken + 1, _ :: r => unescapeFrom taken r
  | 0, c :: r =>
    if c = '\\' then
      match r with
      | [] => []
      | d :: rest => (readEscape d rest).1 :: unescapeFrom (readEscape d rest).2 r
    else c :: unescapeFrom 0 r

def unescape (s : List Char) : List Char := unescapeFrom 0 s

def literal? (s : List Char) : Option String :=
  match Text.trim s with
  | q :: r =>
    if isQuote q && r.getLast? = some q then some (String.ofList (unescape r.dropLast)) else none
  | [] => none

/-! ## Placeholders -/

/-- Splits at the commas outside braces. There is always a last piece. -/
def splitOutsideBraces : Nat → List Char → List Char × List (List Char)
  | _, [] => ([], [])
  | depth, c :: r =>
    if c = ',' && depth = 0 then
      let (piece, rest) := splitOutsideBraces 0 r
      ([], piece :: rest)
    else
      let depth := if c = '{' then depth + 1 else if c = '}' then depth - 1 else depth
      let (piece, rest) := splitOutsideBraces depth r
      (c :: piece, rest)

def placeholder? (pair : List Char) : Option (String × String) :=
  match Text.cutAt? ':' pair with
  | none => none
  | some (name, value) =>
    let name := Text.stripWhile (fun c => Text.isBlank c || isQuote c) name
    if name.isEmpty then none else some (String.ofList name, String.ofList (Text.trim value))

def placeholders (argument : List Char) : Dict String String :=
  match Text.trim argument with
  | '{' :: r =>
    let body := Text.stripWhile (fun c => c = '{' || c = '}' || Text.isBlank c) ('{' :: r)
    let (piece, rest) := splitOutsideBraces 0 body
    Dict.ofList ((piece :: rest).filterMap placeholder?)
  | _ => .empty

/-! ## Calls -/

/-- What a call says before it is resolved. -/
structure RawCall where
  id : Option String
  fallback : Option String := none
  placeholders : Dict String String := .empty
  source : Option String := none
  package : Option String := none
  isPlural : Bool

def RawCall.ofArguments (isPlural : Bool) (arguments : List Char) : RawCall :=
  let parts := splitArguments arguments
  { id := (parts[0]?).bind literal?
    fallback := (parts[1]?).bind literal?
    placeholders := ((parts[2]?).map Fusion.placeholders).getD .empty
    source := (parts[3]?).bind literal?
    package := (parts[4]?).bind literal?
    isPlural }

def RawCall.apply (call : RawCall) (method : String) (arguments : List Char) : RawCall :=
  match method with
  | "package" => { call with package := literal? arguments }
  | "source" => { call with source := literal? arguments }
  | "arguments" => { call with placeholders := Fusion.placeholders arguments }
  | "value" => { call with fallback := literal? arguments }
  | "plural" => { call with isPlural := true }
  | _ => call

/-- The method call at the beginning of a text, after blanks: its name, its arguments and what
follows it. -/
def cutMethod? (s : List Char) : Option (String × List Char × List Char) :=
  match s.dropWhile isSpace with
  | '.' :: r =>
    let name := r.takeWhile Char.isAlpha
    if name.isEmpty then none
    else (cutCall? (r.drop name.length)).map fun (arguments, rest) =>
      (String.ofList name, arguments, rest)
  | _ => none

def applyMethods (call : RawCall) (s : List Char) : RawCall × List Char :=
  match cutMethod? s with
  | none => (call, s)
  | some (method, arguments, rest) =>
    if rest.length < s.length then applyMethods (call.apply method arguments) rest
    else (call, s)
termination_by s.length

/-- The fluent call of an argument list and the method calls after it. -/
def RawCall.ofChain (isPlural : Bool) (arguments rest : List Char) : RawCall × List Char :=
  applyMethods { id := literal? arguments, isPlural } rest

/-! ## Scanning -/

def atWordStart (text : List Char) (position : Nat) : Bool :=
  match position with
  | 0 => true
  | p + 1 => !(text[p]?).any fun c => c.isAlphanum || c == '_'

/-- Finds the calls of a token. `read` reads a call from what follows the token and gives what
follows the call, and `skips` tells at which positions not to look. -/
def scan (text token : List Char) (skips : Nat → Bool)
    (read : List Char → Option (RawCall × List Char)) (position : Nat) (s : List Char) :
    List (Nat × RawCall) :=
  match s with
  | [] => []
  | c :: r =>
    match Text.after? token (c :: r) with
    | none => scan text token skips read (position + 1) r
    | some rest =>
      if skips position || !atWordStart text position then
        scan text token skips read (position + 1) r
      else match read rest with
      | none => scan text token skips read (position + 1) r
      | some (call, rest) =>
        if rest.length < (c :: r).length then
          (position, call) ::
            scan text token skips read (position + ((c :: r).length - rest.length)) rest
        else [(position, call)]
termination_by s.length
decreasing_by all_goals simp only [List.length_cons] at *; omega

def inlineCalls (text : List Char) (token : String) (isPlural : Bool) : List (Nat × RawCall) :=
  let read (s : List Char) := (cutCall? s).map fun (arguments, rest) =>
    (RawCall.ofArguments isPlural arguments, rest)
  scan text token.toList (fun _ => false) read 0 text

/-- The fluent calls of a token at other positions than given ones. -/
def fluentCalls (text : List Char) (taken : List Nat) (token : String) (isPlural : Bool) :
    List (Nat × RawCall) :=
  let read (s : List Char) := (cutCall? s).map fun (arguments, rest) =>
    RawCall.ofChain isPlural arguments rest
  scan text token.toList taken.contains read 0 text

/-- The tokens of inline calls, and whether their messages are plural. -/
def inlineTokens : List (String × Bool) := [("I18n.translate", false), ("I18n.plural", true)]

/-- The tokens of fluent calls, and whether their messages are plural. -/
def fluentTokens : List (String × Bool) :=
  [("Translation.id", false), ("Translation.plural", true), ("I18n.id", false),
   ("I18n.plural", true)]

def calls (text : List Char) : List (Nat × RawCall) :=
  let inline_ := inlineTokens.flatMap fun (token, isPlural) => inlineCalls text token isPlural
  let taken := inline_.map Prod.fst
  inline_ ++ fluentTokens.flatMap fun (token, isPlural) => fluentCalls text taken token isPlural

/-- The reference that a call makes, unless its identifier is no literal or resolves to no key. -/
def reference? (file : String) (line : Nat) (call : RawCall) : Option Reference :=
  (call.id.bind fun id => resolveKey id call.package call.source).map fun key =>
    { key, file, line
      format := .fusion
      fallback := call.fallback
      placeholders := call.placeholders
      isPlural := call.isPlural }

end TranslationAudit.Fusion

namespace TranslationAudit

def collectFusion (file : String) (text : String) : List Reference :=
  let chars := text.toList
  (Fusion.calls chars).filterMap fun (position, call) =>
    Fusion.reference? file (lineAt chars position) call

end TranslationAudit
