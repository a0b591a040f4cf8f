import TranslationAudit.Text.Blank

/-! # Patterns with wildcards

* `Glob`: a pattern. `?` stands for one character and `*` for any run of characters, slashes
  included; `**` stands for whole directories and must be a component of its own; brackets hold a
  class of characters.
* `Glob.parse`: the pattern that a text is, or where it goes wrong.
* `Glob.accepts`: whether a text fits.
-/

namespace TranslationAudit

namespace Glob

/-- A range of characters. -/
structure Span where
  first : Char
  last : Char
deriving DecidableEq

def Span.contains (r : Span) (c : Char) : Bool := r.first ≤ c && c ≤ r.last

/-- A part of a pattern. -/
inductive Part where
  | literal (c : Char)
  | anyOne
  | within (ranges : List Span)
  | except (ranges : List Span)
  | anyRun
  | directories
deriving DecidableEq

/-- What can be wrong with a pattern. -/
inductive Problem where
  | tooManyStars
  | notAComponent
  | invalidRange
deriving DecidableEq

def Problem.message : Problem → String
  | .tooManyStars => "wildcards are either regular `*` or recursive `**`"
  | .notAComponent => "recursive wildcards must form a single path component"
  | .invalidRange => "invalid range pattern"

/-- A problem with the position, counted in characters, at which it shows. -/
structure Error where
  position : Nat
  problem : Problem
deriving DecidableEq

def Error.message (e : Error) : String :=
  "Pattern syntax error near position " ++ toString e.position ++ ": " ++ e.problem.message

/-! ## Reading patterns -/

def spans : List Char → List Span
  | a :: '-' :: b :: r => ⟨a, b⟩ :: spans r
  | a :: r => ⟨a, a⟩ :: spans r
  | [] => []

/-- The class that begins after an opening bracket, and what follows it. A closing bracket that
comes first belongs to the class. -/
def cutClass? (s : List Char) : Option (Part × List Char) :=
  match s with
  | '!' :: c :: r =>
    (Text.cutAt? ']' r).map fun (inner, rest) => (.except (spans (c :: inner)), rest)
  | '!' :: [] => none
  | c :: r => (Text.cutAt? ']' r).map fun (inner, rest) => (.within (spans (c :: inner)), rest)
  | [] => none

/-- Reads parts at a position. `previous` is the character before it. -/
def readParts (previous : Option Char) (position : Nat) (s : List Char) :
    Except Error (List Part) :=
  match s with
  | [] => .ok []
  | '?' :: r => (readParts (some '?') (position + 1) r).map (.anyOne :: ·)
  | '[' :: r =>
    match cutClass? r with
    | none => .error ⟨position, .invalidRange⟩
    | some (part, rest) =>
      if rest.length < r.length + 1 then
        (readParts (some ']') (position + (r.length + 1 - rest.length)) rest).map (part :: ·)
      else .ok [part]
  | '*' :: '*' :: '*' :: _ => .error ⟨position + 2, .tooManyStars⟩
  | '*' :: '*' :: r =>
    if previous.all (· = '/') then
      match r with
      | [] => .ok [.directories]
      | '/' :: rest => (readParts (some '/') (position + 3) rest).map (.directories :: ·)
      | _ => .error ⟨position + 2, .notAComponent⟩
    else .error ⟨position - 1, .notAComponent⟩
  | '*' :: r => (readParts (some '*') (position + 1) r).map (.anyRun :: ·)
  | c :: r => (readParts (some c) (position + 1) r).map (.literal c :: ·)
termination_by s.length

end Glob

/-- A pattern with wildcards. -/
structure Glob where
  parts : List Glob.Part
deriving DecidableEq

namespace Glob

def parse (s : String) : Except Error Glob := (readParts none 0 s.toList).map fun ps => ⟨ps⟩

/-! ## Matching -/

def suffixes : List Char → List (List Char)
  | [] => [[]]
  | c :: r => (c :: r) :: suffixes r

/-- What is left of a text after each of its slashes, and after all of it. -/
def afterSlashes : List Char → List (List Char)
  | [] => [[]]
  | c :: r => if c = '/' then r :: afterSlashes r else afterSlashes r

def Part.acceptsChar (p : Part) (c : Char) : Bool :=
  match p with
  | .literal d => c = d
  | .anyOne => true
  | .within ranges => ranges.any (·.contains c)
  | .except ranges => !ranges.any (·.contains c)
  | _ => false

def acceptsParts : List Part → List Char → Bool
  | [], s => s.isEmpty
  | .anyRun :: ps, s => (suffixes s).any (acceptsParts ps)
  | .directories :: ps, s => (s :: afterSlashes s).any (acceptsParts ps)
  | p :: ps, s =>
    match s with
    | c :: r => p.acceptsChar c && acceptsParts ps r
    | [] => false

def accepts (g : Glob) (text : String) : Bool := acceptsParts g.parts text.toList

/-- The patterns among texts; texts that are none are left out. -/
def valid (patterns : List String) : List Glob :=
  patterns.filterMap fun p => (parse p).toOption

end Glob

end TranslationAudit
