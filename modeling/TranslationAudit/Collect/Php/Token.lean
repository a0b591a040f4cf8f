import TranslationAudit.Text.Blank

/-! # Tokens of PHP files

A PHP file is text with code between opening and closing tags. Strings may hold code, which may
hold strings again, so the lexer keeps a stack of modes.

* `Token`: a piece of code with its place in the file, counted in characters.
* `Mode`: what is being read: text around the code, code, a block in braces, a quoted string or a
  heredoc.
* `tokens`: the tokens of a file, or nothing if a string or comment is not closed or a character
  cannot start a token. Comments and the text between tags leave no token, apart from
  `closingTag`, which marks where code was left: a closing tag ends a statement.
-/

namespace TranslationAudit.Php

/-- What a token is. -/
inductive TokenKind where
  /-- A name or keyword. -/
  | word
  /-- A variable such as `$x`. -/
  | variable
  | number
  /-- A string in single quotes, its quotes included. -/
  | quoted
  /-- A nowdoc, up to its closing label. -/
  | nowdoc
  | symbol
  /-- The opening double quote of a string. -/
  | templateOpen
  /-- The beginning of a heredoc or of a shell command. -/
  | blockOpen
  /-- The end of a string, a heredoc or a shell command. -/
  | templateClose
  | closingTag
deriving DecidableEq, Inhabited

/-- A token, with the offsets of its first character and of the character after it. -/
structure Token where
  kind : TokenKind
  text : String
  start : Nat
  stop : Nat
deriving DecidableEq, Inhabited

/-- What the lexer is reading. -/
inductive Mode where
  /-- The text around the code. -/
  | outside
  | code
  /-- Code within braces. -/
  | braces
  /-- A string or shell command that ends at a delimiter. -/
  | template (delimiter : Char)
  /-- A heredoc that ends at a label. The flag tells whether the label may stand here. -/
  | heredoc (label : List Char) (atStart : Bool)

/-! ## Classes of characters -/

def isSpace (c : Char) : Bool :=
  let n := c.toNat
  (9 ≤ n && n ≤ 13) || n == 0x20 || n == 0xA0 || n == 0x200B || n == 0x2060 || n == 0xFEFF

def isNameStart (c : Char) : Bool :=
  let n := c.toNat
  c.isAlpha || c == '_' || (0x80 ≤ n && n ≤ 0xFFFF && !isSpace c)

def isNameChar (c : Char) : Bool := isNameStart c || c.isDigit

/-- Characters that make a dollar sign in a string the beginning of a variable. -/
def isPlainNameChar (c : Char) : Bool := c.isAlphanum || c == '_'

def symbols : List String :=
  ["<=>", "**=", "...", "<<=", ">>=", "===", "!==", "??=", "?->",
   "++", "--", "->", "=>", "::", "==", "!=", "<>", "<=", ">=", "&&", "||", "??", "<<", ">>",
   "+=", "-=", "*=", "/=", ".=", "%=", "&=", "|=", "^=", "**", "#[",
   "+", "-", "*", "/", "%", "=", "<", ">", "!", ".", "(", ")", "[", "]", "\x7b", "\x7d", ",", ";",
   "?", ":", "&", "|", "^", "~", "@", "$", "\\"]

/-! ## Comments -/

/-- What is left after the rest of a line comment. It ends before a line break or a closing tag; a
question mark before a line break takes the break along. -/
def afterLineComment : List Char → List Char
  | '?' :: '>' :: r => '?' :: '>' :: r
  | '?' :: '\n' :: r => r
  | '?' :: '\r' :: '\n' :: r => r
  | '?' :: '\r' :: r => '?' :: '\r' :: r
  | ['?'] => ['?']
  | '?' :: _ :: r => afterLineComment r
  | '\n' :: r => '\n' :: r
  | '\r' :: r => '\r' :: r
  | _ :: r => afterLineComment r
  | [] => []

def afterBlockComment : List Char → Option (List Char)
  | '*' :: '/' :: r => some r
  | _ :: r => afterBlockComment r
  | [] => none

/-- What is left after a comment at the beginning of a text, if there is one. A comment that is not
closed counts as no comment. -/
def afterComment? : List Char → Option (List Char)
  | '/' :: '/' :: r => some (afterLineComment r)
  | '/' :: '*' :: r => afterBlockComment r
  | '#' :: '[' :: _ => none
  | '#' :: '?' :: r => some ('?' :: r)
  | '#' :: r => some (afterLineComment r)
  | _ => none

/-! ## Numbers and single quotes -/

/-- The length of a run of digits of a class, with single underscores between them. -/
def digitsLength (p : Char → Bool) : List Char → Nat
  | '_' :: c :: r => if p c then 2 + digitsLength p r else 0
  | c :: r => if p c then 1 + digitsLength p r else 0
  | [] => 0

/-- The length of an exponent part, or 0. -/
def exponentLength : List Char → Nat
  | e :: r =>
    if e = 'e' ∨ e = 'E' then
      match r with
      | s :: d :: t =>
        if s = '+' ∨ s = '-' then if d.isDigit then 2 + digitsLength Char.isDigit (d :: t) else 0
        else if s.isDigit then 1 + digitsLength Char.isDigit r else 0
      | [d] => if d.isDigit then 2 else 0
      | [] => 0
    else 0
  | [] => 0

def isHexDigit (c : Char) : Bool :=
  c.isDigit || ('a' ≤ c && c ≤ 'f') || ('A' ≤ c && c ≤ 'F')

/-- The length of the number at the beginning of a text, or 0. -/
def numberLength (s : List Char) : Nat :=
  let radix : Option ((Char → Bool)) := match s with
    | '0' :: x :: _ =>
      if x = 'x' ∨ x = 'X' then some isHexDigit
      else if x = 'b' ∨ x = 'B' then some fun c => c == '0' || c == '1'
      else if x = 'o' ∨ x = 'O' then some fun c => '0' ≤ c && c ≤ '7'
      else none
    | _ => none
  match radix with
  | some p => if digitsLength p (s.drop 2) = 0 then 1 else 2 + digitsLength p (s.drop 2)
  | none =>
    let whole := digitsLength Char.isDigit s
    let fraction := match s.drop whole with
      | '.' :: r => 1 + digitsLength Char.isDigit r
      | _ => 0
    if whole = 0 ∧ fraction ≤ 1 then 0
    else whole + fraction + exponentLength (s.drop (whole + fraction))

/-- The length of what follows an opening single quote, the closing one included. -/
def quotedLength : List Char → Option Nat
  | '\\' :: _ :: r => (quotedLength r).map (· + 2)
  | '\'' :: _ => some 1
  | _ :: r => (quotedLength r).map (· + 1)
  | [] => none

/-! ## Heredocs -/

/-- What is left before the closing label of a heredoc, if the label stands here after blanks. The
label must be followed by a semicolon, a comma, a closing parenthesis or a line break, with blanks
between them at most. -/
def atClosingLabel? (label s : List Char) : Option (List Char) :=
  let s := s.dropWhile Text.isBlank
  match Text.after? label s with
  | none => none
  | some rest =>
    let onLine := rest.dropWhile fun c => Text.isBlank c && c ≠ '\r' && c ≠ '\n'
    match onLine with
    | c :: _ => if c = ';' ∨ c = ',' ∨ c = ')' ∨ c = '\n' ∨ c = '\r' then some s else none
    | [] => none

def afterBreak? : List Char → Option (List Char)
  | '\r' :: '\n' :: r => some r
  | '\n' :: r => some r
  | '\r' :: r => some r
  | _ => none

def afterNowdoc (label : List Char) : Bool → List Char → Option (List Char)
  | atStart, s =>
    match (if atStart then atClosingLabel? label s else none), s with
    | some r, _ => some (r.drop label.length)
    | none, [] => none
    | none, c :: r => afterNowdoc label (c = '\n' || c = '\r') r
termination_by _ s => s.length

/-- The head of a heredoc or nowdoc: its label, whether it is a nowdoc, and what follows the
line. -/
def heredocHead? (s : List Char) : Option (List Char × Bool × List Char) :=
  let s := s.dropWhile fun c => c = ' ' ∨ c = '\t'
  let (quote, s) : Option Char × List Char := match s with
    | '"' :: r => (some '"', r)
    | '\'' :: r => (some '\'', r)
    | _ => (none, s)
  let label := s.takeWhile isPlainNameChar
  let rest := s.dropWhile isPlainNameChar
  if label.isEmpty then none
  else
    let rest? := match quote with
      | none => some rest
      | some q => Text.after? [q] rest
    (rest?.bind afterBreak?).map fun r => (label, quote = some '\'', r)

/-! ## Strings with variables -/

/-- The lengths of the tokens of a subscript in a string, after its opening bracket: a sign, an
index, and the closing bracket. -/
def subscriptTokens? (s : List Char) : Option (List (TokenKind × Nat)) :=
  let closed (tokens : List (TokenKind × Nat)) (r : List Char) :=
    match r with
    | ']' :: _ => some (tokens ++ [(TokenKind.symbol, 1)])
    | _ => none
  match s with
  | '$' :: r =>
    let name := r.takeWhile isNameChar
    if name.head?.any isNameStart then
      closed [(.variable, name.length + 1)] (r.drop name.length)
    else none
  | '-' :: r =>
    let n := digitsLength Char.isDigit r
    if n = 0 then none else closed [(.symbol, 1), (.number, n)] (r.drop n)
  | _ =>
    let n := numberLength s
    if n ≠ 0 then closed [(.number, n)] (s.drop n)
    else
      let name := s.takeWhile isNameChar
      if name.head?.any isNameStart then closed [(.word, name.length)] (s.drop name.length)
      else none

/-- The lengths of the tokens of a variable in a string, with its subscript or property. -/
def variableTokens? (s : List Char) : Option (List (TokenKind × Nat)) :=
  match s with
  | '$' :: r =>
    let name := r.takeWhile isNameChar
    if !name.head?.any isNameStart then none
    else
      let head := (TokenKind.variable, name.length + 1)
      match r.drop name.length with
      | '[' :: rest => (subscriptTokens? rest).map ([head, (.symbol, 1)] ++ ·)
      | '-' :: '>' :: rest =>
        match rest with
        | c :: _ =>
          if isPlainNameChar c then
            if c.isDigit then none
            else some [head, (.symbol, 2), (.word, (rest.takeWhile isNameChar).length)]
          else some [head]
        | [] => some [head]
      | _ => some [head]
  | _ => none

/-! ## The lexer -/

/-- What a step of the lexer finds at the beginning of a text. -/
inductive Step where
  /-- Tokens of these lengths, and the modes after them. -/
  | emit (tokens : List (TokenKind × Nat)) (modes : List Mode)
  /-- Characters that belong to no token. -/
  | skip (count : Nat) (modes : List Mode)
  | fail

def afterOpeningTag? : List Char → Option (List Char)
  | '<' :: '?' :: '=' :: r => some r
  | '<' :: '?' :: p :: h :: q :: r =>
    if p.toLower = 'p' ∧ h.toLower = 'h' ∧ q.toLower = 'p' then some r
    else some (p :: h :: q :: r)
  | '<' :: '?' :: r => some r
  | _ => none

def codeStep (modes : List Mode) (s : List Char) : Step :=
  match s with
  | [] => .fail
  | c :: r =>
    if isSpace c then .skip 1 modes
    else match afterComment? s with
    | some rest => .skip (s.length - rest.length) modes
    | none =>
    match s with
    | '?' :: '>' :: _ => .emit [(.closingTag, 2)] (.outside :: modes)
    | '<' :: '<' :: '<' :: rest =>
      match heredocHead? rest with
      | none => .fail
      | some (label, isNowdoc, body) =>
        if isNowdoc then
          match afterNowdoc label true body with
          | none => .fail
          | some after => .emit [(.nowdoc, s.length - after.length)] modes
        else .emit [(.blockOpen, s.length - body.length)] (.heredoc label true :: modes)
    | '\'' :: rest =>
      match quotedLength rest with
      | none => .fail
      | some n => .emit [(.quoted, n + 1)] modes
    | '"' :: _ => .emit [(.templateOpen, 1)] (.template '"' :: modes)
    | '\x60' :: _ => .emit [(.blockOpen, 1)] (.template '\x60' :: modes)
    | _ =>
    if (c = 'b' ∨ c = 'B') ∧ r.head? = some '\'' then
      match quotedLength (r.drop 1) with
      | none => .fail
      | some n => .emit [(.quoted, n + 2)] modes
    else if (c = 'b' ∨ c = 'B') ∧ r.head? = some '"' then
      .emit [(.templateOpen, 2)] (.template '"' :: modes)
    else if isNameStart c then .emit [(.word, (s.takeWhile isNameChar).length)] modes
    else if c = '$' ∧ r.head?.any isNameStart then
      .emit [(.variable, (r.takeWhile isNameChar).length + 1)] modes
    else if numberLength s ≠ 0 then .emit [(.number, numberLength s)] modes
    else match symbols.find? fun p => p.toList.isPrefixOf s with
    | none => .fail
    | some p =>
      let modes :=
        if c = '{' then .braces :: modes
        else if c = '}' then
          match modes with
          | .braces :: outer => outer
          | _ => modes
        else modes
      .emit [(.symbol, p.length)] modes

/-- A step in a string or heredoc, after what could end it. `stay` is the mode to go on in. -/
def templateStep (stay : Mode) (outer : List Mode) (s : List Char) : Step :=
  match s with
  | [] => .fail
  | '\\' :: _ :: _ => .skip 2 (stay :: outer)
  | '{' :: '$' :: _ => .emit [(.symbol, 1)] (.braces :: stay :: outer)
  | '$' :: '{' :: _ => .emit [(.symbol, 2)] (.braces :: stay :: outer)
  | '$' :: c :: _ =>
    if isPlainNameChar c then
      match variableTokens? s with
      | none => .fail
      | some tokens => .emit tokens (stay :: outer)
    else .skip 1 (stay :: outer)
  | _ => .skip 1 (stay :: outer)

def step (modes : List Mode) (s : List Char) : Step :=
  match modes with
  | .outside :: outer =>
    match afterOpeningTag? s with
    | some rest => .skip (s.length - rest.length) outer
    | none => .skip 1 modes
  | .template delimiter :: outer =>
    if s.head? = some delimiter then .emit [(.templateClose, 1)] outer
    else templateStep (.template delimiter) outer s
  | .heredoc label atStart :: outer =>
    match if atStart then atClosingLabel? label s else none with
    | some rest =>
      if rest.length < s.length then .skip (s.length - rest.length) modes
      else .emit [(.templateClose, label.length)] outer
    | none =>
      match s with
      | '\n' :: _ => .skip 1 (.heredoc label true :: outer)
      | '\r' :: _ => .skip 1 (.heredoc label true :: outer)
      | _ =>
        match templateStep (.heredoc label false) outer s with
        | .emit tokens (.braces :: _) => .emit tokens (.braces :: .heredoc label true :: outer)
        | .emit tokens _ => .emit tokens (.heredoc label true :: outer)
        | other => other
  | _ => codeStep modes s

def mayEnd : List Mode → Bool
  | .template _ :: _ => false
  | .heredoc _ _ :: _ => false
  | _ => true

def cut : List (TokenKind × Nat) → Nat → List Char → List Token
  | [], _, _ => []
  | (kind, n) :: rest, offset, s =>
    ⟨kind, String.ofList (s.take n), offset, offset + n⟩ :: cut rest (offset + n) (s.drop n)

/-- Runs the lexer from an offset. Each step but the last consumes a character, so the length of the
text is enough fuel. -/
def scan : Nat → List Mode → Nat → List Char → Option (List Token)
  | 0, modes, _, s => if s.isEmpty && mayEnd modes then some [] else none
  | fuel + 1, modes, offset, s =>
    if s.isEmpty then if mayEnd modes then some [] else none
    else match step modes s with
    | .fail => none
    | .skip n modes' => scan fuel modes' (offset + n) (s.drop n)
    | .emit tokens modes' =>
      let n := tokens.foldr (fun t n => t.2 + n) 0
      (scan fuel modes' (offset + n) (s.drop n)).map (cut tokens offset s ++ ·)

def tokens (s : List Char) : Option (List Token) := scan s.length [.outside, .code] 0 s

end TranslationAudit.Php
