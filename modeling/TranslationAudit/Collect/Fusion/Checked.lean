import TranslationAudit.Collect.Fusion
import TranslationAudit.Text.Slice

/-! # References in Fusion files, by offsets

The reading of a Fusion file as loops over the bytes of its text. What is read is cut out as slices
between offsets. A function whose name ends in a question mark and that gives no result has taken a
slice that does not exist, or a loop that goes on from round to round has not ended.

* `skipSpace`, `skipQuoted`, `closing?`: where blanks, quotes and lists of arguments end.
* `readCall?`, `splitArguments?`, `literal?`, `placeholders?`: what is cut out of them.
* `rounds?`: a loop that looks for something from an offset on, and goes on behind it.
* `inlinePass?`, `fluentPass?`: the calls of a token, in the order in which they are found.
* `sites?`, `collectFusion?`: the references of a file, with the offsets of their tokens and
  without.
-/

namespace TranslationAudit.Fusion.Checked

open Text

/-! ## Offsets of marks -/

def isSpaceByte (b : UInt8) : Bool :=
  b == ' '.toUInt8 || b == '\t'.toUInt8 || b == '\n'.toUInt8 || b == '\x0c'.toUInt8 ||
    b == '\r'.toUInt8

def isQuoteByte (b : UInt8) : Bool := b == '\''.toUInt8 || b == '"'.toUInt8

def isOpenByte (b : UInt8) : Bool := b == '('.toUInt8 || b == '{'.toUInt8 || b == '['.toUInt8

def isCloseByte (b : UInt8) : Bool := b == ')'.toUInt8 || b == '}'.toUInt8 || b == ']'.toUInt8

def isAlphaByte (b : UInt8) : Bool :=
  ('a'.toUInt8 ≤ b && b ≤ 'z'.toUInt8) || ('A'.toUInt8 ≤ b && b ≤ 'Z'.toUInt8)

def isDigitByte (b : UInt8) : Bool := '0'.toUInt8 ≤ b && b ≤ '9'.toUInt8

/-- Past the blanks at an offset. -/
def skipSpace (b : List UInt8) (i : Nat) : Nat :=
  if h : i < b.length then
    if isSpaceByte b[i] then skipSpace b (i + 1) else i
  else i
termination_by b.length - i

/-- Past the end of a quoted text, from an offset within it. A backslash takes a byte along, which
may be the first one of a longer character. -/
def skipQuoted (b : List UInt8) (quote : UInt8) (i : Nat) : Nat :=
  if h : i < b.length then
    if b[i] = '\\'.toUInt8 then skipQuoted b quote (i + 2)
    else if b[i] = quote then i + 1
    else skipQuoted b quote (i + 1)
  else b.length
termination_by b.length - i

theorem le_skipQuoted {b : List UInt8} {i : Nat} (h : i ≤ b.length) (quote : UInt8) :
    i ≤ skipQuoted b quote i := by
  fun_induction skipQuoted b quote i with
  | case1 i hi hescape ih =>
    by_cases hend : i + 2 ≤ b.length
    · have hnext := ih hend
      omega
    · rw [skipQuoted, dif_neg (by omega)]
      exact h
  | case2 => omega
  | case3 i hi _ _ ih =>
    have hnext := ih hi
    omega
  | case4 => exact h

theorem lt_skipQuoted {b : List UInt8} {i : Nat} (h : i < b.length) (quote : UInt8) :
    i < skipQuoted b quote (i + 1) :=
  le_skipQuoted (Nat.succ_le_of_lt h) quote

/-- The offset of the parenthesis that closes `depth` open ones. Unlike a signed number of 32 bits,
the depth has no bound, which makes a difference behind 2 ^ 31 open parentheses only. -/
def closing? (b : List UInt8) (depth i : Nat) : Option Nat :=
  if h : i < b.length then
    if isQuoteByte b[i] then closing? b depth (skipQuoted b b[i] (i + 1))
    else if b[i] = '('.toUInt8 then closing? b (depth + 1) (i + 1)
    else if b[i] = ')'.toUInt8 then
      if depth - 1 = 0 then some i else closing? b (depth - 1) (i + 1)
    else closing? b depth (i + 1)
  else none
termination_by b.length - i
decreasing_by
  · have hskip := lt_skipQuoted h b[i]
    omega
  all_goals omega

/-! ## Calls -/

/-- A list of arguments: the text within its parentheses, and the offset behind them. -/
structure Call where
  arguments : List Char
  stop : Nat

/-- The list of arguments at an offset, after blanks. -/
def readCall? (text : List Char) (offset : Nat) : Option (Option Call) :=
  let opening := skipSpace (bytes text) offset
  if (bytes text)[opening]? = some '('.toUInt8 then
    match closing? (bytes text) 1 (opening + 1) with
    | none => some none
    | some stop => (slice? text (opening + 1) stop).map fun arguments => some ⟨arguments, stop + 1⟩
  else some none

/-- The arguments from an offset on, of which the first begins at `start`. -/
def partsFrom? (s : List Char) (depth start i : Nat) : Option (List (List Char)) :=
  if h : i < (bytes s).length then
    let b := (bytes s)[i]
    if isQuoteByte b then partsFrom? s depth start (skipQuoted (bytes s) b (i + 1))
    else if isOpenByte b then partsFrom? s (depth + 1) start (i + 1)
    else if isCloseByte b then partsFrom? s (depth - 1) start (i + 1)
    else if b = ','.toUInt8 ∧ depth = 0 then do
      let part ← slice? s start i
      let parts ← partsFrom? s depth (i + 1) (i + 1)
      return trim part :: parts
    else partsFrom? s depth start (i + 1)
  else do
    let part ← slice? s start (byteLength s)
    return [trim part]
termination_by (bytes s).length - i
decreasing_by
  · have hskip := lt_skipQuoted h (bytes s)[i]
    omega
  all_goals omega

def splitArguments? (s : List Char) : Option (List (List Char)) :=
  (partsFrom? s 0 0 0).map fun parts => if parts = [[]] then [] else parts

def literal? (s : List Char) : Option (Option String) :=
  let candidate := trim s
  match candidate.head? with
  | none => some none
  | some quote =>
    if byteLength candidate < 2 || !isQuote quote || candidate.getLast? != some quote then some none
    else (slice? candidate 1 (byteLength candidate - 1)).map fun body =>
      some (String.ofList (unescape body))

/-- The pairs of a map from an offset on, of which the first begins at `start`. -/
def pairsFrom? (s : List Char) (depth start i : Nat) : Option (List (List Char)) :=
  if h : i < (bytes s).length then
    let b := (bytes s)[i]
    if b = '{'.toUInt8 then pairsFrom? s (depth + 1) start (i + 1)
    else if b = '}'.toUInt8 then pairsFrom? s (depth - 1) start (i + 1)
    else if b = ','.toUInt8 ∧ depth = 0 then do
      let part ← slice? s start i
      let parts ← pairsFrom? s depth (i + 1) (i + 1)
      return part :: parts
    else pairsFrom? s depth start (i + 1)
  else do
    let part ← slice? s start (byteLength s)
    return [part]
termination_by (bytes s).length - i

def placeholders? (argument : List Char) : Option (Dict String String) :=
  let trimmed := trim argument
  if trimmed.head? = some '{' then
    let body := stripWhile (fun c => c = '{' || c = '}' || isBlank c) trimmed
    (pairsFrom? body 0 0 0).map fun pairs => Dict.ofList (pairs.filterMap placeholder?)
  else some .empty

/-- What an argument says, if there is one. -/
def argument? {α : Type} (read : List Char → Option α) (missing : α) :
    Option (List Char) → Option α
  | none => some missing
  | some argument => read argument

def ofArguments? (isPlural : Bool) (arguments : List Char) : Option RawCall := do
  let parts ← splitArguments? arguments
  let id ← argument? literal? none parts[0]?
  let fallback ← argument? literal? none parts[1]?
  let placeholders ← argument? placeholders? .empty parts[2]?
  let source ← argument? literal? none parts[3]?
  let package ← argument? literal? none parts[4]?
  return { id, fallback, placeholders, source, package, isPlural }

def applied? (call : RawCall) (method : String) (arguments : List Char) : Option RawCall :=
  match method with
  | "package" => (literal? arguments).map fun package => { call with package }
  | "source" => (literal? arguments).map fun source => { call with source }
  | "arguments" => (placeholders? arguments).map fun placeholders => { call with placeholders }
  | "value" => (literal? arguments).map fun fallback => { call with fallback }
  | "plural" => some { call with isPlural := true }
  | _ => some call

/-! ## Loops -/

/-- What a loop finds from an offset on, each with the offset at which the loop goes on. A round
tells these two, or that the loop ends. -/
def rounds? {α : Type} (round? : Nat → Option (Option (α × Nat))) :
    Nat → Nat → Option (List (α × Nat))
  | 0, _ => none
  | limit + 1, offset =>
    match round? offset with
    | none => none
    | some none => some []
    | some (some (found, next)) => (rounds? round? limit next).map ((found, next) :: ·)

/-- The letters at an offset. -/
def readName? (text : List Char) (offset : Nat) : Option (List Char) := do
  let rest ← slice? text offset (byteLength text)
  slice? rest 0 ((bytes rest).takeWhile isAlphaByte).length

/-- A method call at an offset, after blanks: its name and its arguments. -/
def methodRound? (text : List Char) (offset : Nat) :
    Option (Option ((String × List Char) × Nat)) :=
  let dot := skipSpace (bytes text) offset
  if (bytes text)[dot]? = some '.'.toUInt8 then do
    let name ← readName? text (dot + 1)
    if name.isEmpty then return none
    else
      let call ← readCall? text (dot + 1 + byteLength name)
      return call.map fun call => ((String.ofList name, call.arguments), call.stop)
  else some none

/-- No loop over a text has more rounds than this. -/
def roundLimit (text : List Char) : Nat := byteLength text + 1

/-- The inline call behind a token. -/
def readInline? (text : List Char) (isPlural : Bool) (offset : Nat) :
    Option (Option (RawCall × Nat)) := do
  match ← readCall? text offset with
  | none => return none
  | some list =>
    let call ← ofArguments? isPlural list.arguments
    return some (call, list.stop)

/-- The fluent call behind a token, with its method calls. -/
def readFluent? (text : List Char) (isPlural : Bool) (offset : Nat) :
    Option (Option (RawCall × Nat)) := do
  match ← readCall? text offset with
  | none => return none
  | some list =>
    let id ← literal? list.arguments
    let methods ← rounds? (methodRound? text) (roundLimit text) list.stop
    let call ← methods.foldlM (fun call round => applied? call round.1.1 round.1.2)
      ({ id, isPlural } : RawCall)
    let cursor := (methods.getLast?.map Prod.snd).getD list.stop
    return some (call, max cursor offset)

/-! ## Passes -/

/-- The offset of the first occurrence of a token. -/
def find? (token : List Char) : List Char → Option Nat
  | [] => if token.isEmpty then some 0 else none
  | c :: s =>
    if token.isPrefixOf (c :: s) then some 0
    else (find? token s).map (c.utf8Size + ·)

/-- Whether no longer word ends at an offset. -/
def atWordStart (b : List UInt8) (offset : Nat) : Bool :=
  match offset with
  | 0 => true
  | i + 1 => !(b[i]?).any fun b => isAlphaByte b || isDigitByte b || b == '_'.toUInt8

/-- The next occurrence of a token: the call that is read behind it, if there is one, with the
offset of the token. -/
def passRound? (text token : List Char) (skips : Nat → Bool)
    (read? : Nat → Option (Option (RawCall × Nat))) (offset : Nat) :
    Option (Option (Option (Nat × RawCall) × Nat)) := do
  let rest ← slice? text offset (byteLength text)
  match find? token rest with
  | none => return none
  | some found =>
    let position := offset + found
    let tokenEnd := position + byteLength token
    if skips position || !atWordStart (bytes text) position then return some (none, tokenEnd)
    else match ← read? tokenEnd with
    | none => return some (none, tokenEnd)
    | some (call, stop) => return some (some (position, call), stop)

/-- The rounds of the pass over the inline calls of a token. -/
def inlinePass? (text : List Char) (token : String × Bool) :
    Option (List (Option (Nat × RawCall) × Nat)) :=
  rounds? (passRound? text token.1.toList (fun _ => false) (readInline? text token.2))
    (roundLimit text) 0

/-- The rounds of the pass over the fluent calls of a token, at other offsets than given ones. -/
def fluentPass? (text : List Char) (consumed : List Nat) (token : String × Bool) :
    Option (List (Option (Nat × RawCall) × Nat)) :=
  rounds? (passRound? text token.1.toList consumed.contains (readFluent? text token.2))
    (roundLimit text) 0

/-- The calls that the rounds of passes found. -/
def found (passes : List (List (Option (Nat × RawCall) × Nat))) : List (Nat × RawCall) :=
  passes.flatten.filterMap Prod.fst

def lineAt (b : List UInt8) (offset : Nat) : Nat := (b.take offset).count '\n'.toUInt8 + 1

/-- The references of a file, each with the offset of its token. -/
def sites? (file text : String) : Option (List (Nat × Reference)) := do
  let chars := text.toList
  let inline_ ← inlineTokens.mapM (inlinePass? chars)
  let fluent ← fluentTokens.mapM (fluentPass? chars ((found inline_).map Prod.fst))
  return (found (inline_ ++ fluent)).filterMap fun (position, call) =>
    (reference? file (lineAt (bytes chars) position) call).map (position, ·)

end TranslationAudit.Fusion.Checked

namespace TranslationAudit

def collectFusion? (file text : String) : Option (List Reference) :=
  (Fusion.Checked.sites? file text).map fun sites => sites.map Prod.snd

end TranslationAudit
