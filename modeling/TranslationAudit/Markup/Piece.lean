import TranslationAudit.Markup.Attribute

/-! # The pieces of a markup text

* `Piece`: a run of text, a tag, a comment, a section of character data, or something that leaves
  nothing in the tree.
* `cutPiece`: the first piece of a text, and what follows it.
* `pieces`: all pieces with the offsets, in bytes, at which they begin, up to the end or to markup
  that is not closed or not known.
-/

namespace TranslationAudit.Markup

/-- A piece of a markup text. -/
inductive Piece where
  /-- Text as written, with its entities. -/
  | text (raw : List Char)
  /-- An opening tag, without its angle brackets. -/
  | opening (content : List Char)
  /-- A tag of an element without content, without its brackets and slash. -/
  | empty (content : List Char)
  /-- A closing tag, without its brackets, its slash and blanks at its end. -/
  | closing (name : List Char)
  | comment (content : List Char)
  | characterData (content : List Char)
  /-- An instruction, a declaration or a document type. -/
  | ignored
deriving DecidableEq

/-- The markup that has an end of its own. -/
inductive Enclosed where
  | instruction
  | comment
  | doctype
  | characterData
  | tag
deriving DecidableEq

/-- What can be wrong with markup. -/
inductive PieceError where
  | unknownMarkup
  | notClosed (what : Enclosed)
  | doctypeWithoutName
deriving DecidableEq

def Enclosed.message : Enclosed → String
  | .instruction =>
    "processing instruction or xml declaration not closed: `?>` not found before end of input"
  | .comment => "comment not closed: `-->` not found before end of input"
  | .doctype => "DOCTYPE not closed: `>` not found before end of input"
  | .characterData => "CDATA not closed: `]]>` not found before end of input"
  | .tag => "tag not closed: `>` not found before end of input"

def PieceError.message : PieceError → String
  | .unknownMarkup => "syntax error: unknown or missed symbol in markup"
  | .notClosed what => "syntax error: " ++ what.message
  | .doctypeWithoutName =>
    "ill-formed document: `<!DOCTYPE>` declaration does not contain a name of a document type"

/-! ## Ends -/

/-- The parts before and after the first occurrence of a text. -/
def cutAtText? (ending : List Char) : List Char → Option (List Char × List Char)
  | [] => (Text.after? ending []).map fun r => ([], r)
  | c :: s =>
    match Text.after? ending (c :: s) with
    | some r => some ([], r)
    | none => (cutAtText? ending s).map fun (a, b) => (c :: a, b)

/-- The text of a tag up to the first closing bracket outside quotes, and what follows it. -/
def cutTag? : Option Char → List Char → Option (List Char × List Char)
  | _, [] => none
  | none, c :: r =>
    if c = '>' then some ([], r)
    else
      (cutTag? (if c = '"' ∨ c = '\'' then some c else none) r).map fun (a, b) => (c :: a, b)
  | some q, c :: r =>
    (cutTag? (if c = q then none else some q) r).map fun (a, b) => (c :: a, b)

/-- The text of a document type up to the bracket that balances its opening one. -/
def cutDoctype? : Nat → List Char → Option (List Char × List Char)
  | _, [] => none
  | depth, c :: r =>
    if c = '>' then
      match depth with
      | 0 => some ([], r)
      | d + 1 => (cutDoctype? d r).map fun (a, b) => (c :: a, b)
    else
      (cutDoctype? (if c = '<' then depth + 1 else depth) r).map fun (a, b) => (c :: a, b)

/-! ## Pieces -/

/-- The name in a closing tag. Blanks after it are dropped, but a name of blanks only is kept. -/
def closingName (content : List Char) : List Char :=
  if content.all isSpace then content else Text.dropEndWhile isSpace content

def cutDeclaration (s : List Char) : Except PieceError (Piece × List Char) :=
  match s with
  | '-' :: '-' :: r =>
    match cutAtText? "-->".toList r with
    | some (content, rest) => .ok (.comment content, rest)
    | none => .error (.notClosed .comment)
  | '-' :: _ => .error (.notClosed .comment)
  | '[' :: r =>
    match (Text.after? "CDATA[".toList r).bind (cutAtText? "]]>".toList) with
    | some (content, rest) => .ok (.characterData content, rest)
    | none => .error (.notClosed .characterData)
  | c :: _ =>
    if c = 'D' ∨ c = 'd' then
      match cutDoctype? 0 s with
      | none => .error (.notClosed .doctype)
      | some (content, rest) =>
        if (content.take 7).map Char.toUpper ≠ "DOCTYPE".toList then .error (.notClosed .doctype)
        else if (content.drop 7).all isSpace then .error .doctypeWithoutName
        else .ok (.ignored, rest)
    else .error .unknownMarkup
  | [] => .error .unknownMarkup

def cutMarkup (s : List Char) : Except PieceError (Piece × List Char) :=
  match s with
  | '!' :: r => cutDeclaration r
  | '?' :: '>' :: _ => .error (.notClosed .instruction)
  | '?' :: r =>
    match cutAtText? "?>".toList r with
    | some (_, rest) => .ok (.ignored, rest)
    | none => .error (.notClosed .instruction)
  | _ =>
    match cutTag? none s with
    | none => .error (.notClosed .tag)
    | some ('/' :: content, rest) => .ok (.closing (closingName content), rest)
    | some (content, rest) =>
      match Text.before? ['/'] content with
      | some content => .ok (.empty content, rest)
      | none => .ok (.opening content, rest)

/-- The first piece of a text that is not empty, and what follows it. -/
def cutPiece (s : List Char) : Except PieceError (Piece × List Char) :=
  match s with
  | '<' :: r => cutMarkup r
  | _ => .ok (.text (s.takeWhile (· ≠ '<')), s.dropWhile (· ≠ '<'))

/-- The pieces of a text with their offsets, and the error that ends them, if there is one. -/
def piecesFrom (offset : Nat) (s : List Char) : List (Nat × Piece) × Option (Nat × PieceError) :=
  match s with
  | [] => ([], none)
  | c :: r =>
    match cutPiece (c :: r) with
    | .error e => ([], some (offset, e))
    | .ok (piece, rest) =>
      if rest.length < (c :: r).length then
        let (others, ending) := piecesFrom (offset + byteCount (c :: r) - byteCount rest) rest
        ((offset, piece) :: others, ending)
      else ([(offset, piece)], none)
termination_by s.length
decreasing_by simp only [List.length_cons] at *; omega

/-- The pieces of a document. A byte order mark before it is no part of it. -/
def pieces (s : List Char) : List (Nat × Piece) × Option (Nat × PieceError) :=
  match s with
  | '\ufeff' :: r => piecesFrom 0 r
  | _ => piecesFrom 0 s

end TranslationAudit.Markup
