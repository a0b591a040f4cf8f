/-! # Blank characters, trimming, words and lines

Texts are lists of characters here; the rest of the library converts at its borders.

* `isBlank`: the characters of the Unicode property White_Space.
* `trimStart`, `trimEnd`, `trim`: a text without its outer blanks.
* `split`: the pieces of a text between separators; `words`: its runs of non-blank characters.
* `lines`: the lines of a text, each without the line feed that ends it and without one carriage
  return right before that line feed.
-/

namespace TranslationAudit.Text

/-- The property White_Space. -/
def isBlank (c : Char) : Bool :=
  let n := c.toNat
  (9 ≤ n && n ≤ 13) || n == 0x20 || n == 0x85 || n == 0xA0 || n == 0x1680 ||
    (0x2000 ≤ n && n ≤ 0x200A) || n == 0x2028 || n == 0x2029 || n == 0x202F || n == 0x205F ||
    n == 0x3000

/-! ## Trimming -/

def dropEndWhile (p : Char → Bool) (s : List Char) : List Char :=
  (s.reverse.dropWhile p).reverse

def stripWhile (p : Char → Bool) (s : List Char) : List Char :=
  dropEndWhile p (s.dropWhile p)

def trimStart (s : List Char) : List Char := s.dropWhile isBlank

def trimEnd (s : List Char) : List Char := dropEndWhile isBlank s

def trim (s : List Char) : List Char := stripWhile isBlank s

/-- Whether a text holds nothing but blanks. -/
def allBlank (s : List Char) : Bool := s.all isBlank

/-! ## Pieces -/

/-- The pieces between separators, empty ones included: one more than there are separators. -/
def split (p : Char → Bool) : List Char → List (List Char)
  | [] => [[]]
  | c :: r =>
    if p c then [] :: split p r
    else match split p r with
      | [] => [[c]]
      | piece :: rest => (c :: piece) :: rest

/-- The non-empty runs of non-blank characters. -/
def words (s : List Char) : List (List Char) :=
  (split isBlank s).filter (· ≠ [])

/-- A text with every run of blanks made one space and without outer blanks. -/
def collapse (s : List Char) : List Char := [' '].intercalate (words s)

/-- The lines of a text. A last line feed ends the last line and opens no other. -/
def lines : List Char → List (List Char)
  | [] => []
  | '\n' :: r => [] :: lines r
  | '\r' :: '\n' :: r => [] :: lines r
  | c :: r =>
    match lines r with
    | [] => [[c]]
    | line :: rest => (c :: line) :: rest

/-- The parts before and after the first occurrence of a character. -/
def cutAt? (c : Char) : List Char → Option (List Char × List Char)
  | [] => none
  | d :: r => if d = c then some ([], r) else (cutAt? c r).map fun (a, b) => (d :: a, b)

/-- The parts before and after the last occurrence of a character. -/
def cutAtLast? (c : Char) : List Char → Option (List Char × List Char)
  | [] => none
  | d :: r =>
    match cutAtLast? c r with
    | some (a, b) => some (d :: a, b)
    | none => if d = c then some ([], r) else none

def after? : List Char → List Char → Option (List Char)
  | [], s => some s
  | _ :: _, [] => none
  | c :: p, d :: s => if c = d then after? p s else none

def before? (ending s : List Char) : Option (List Char) :=
  (after? ending.reverse s.reverse).map List.reverse

/-! ## On strings -/

def trimmed (s : String) : String := String.ofList (trim s.toList)

def isAllBlank (s : String) : Bool := allBlank s.toList

/-- A text after trimming, unless nothing is left of it. -/
def nonBlank? (s : String) : Option String :=
  let t := trimmed s
  if t.isEmpty then none else some t

def linesOf (s : String) : List String := (lines s.toList).map String.ofList

def unlines (ls : List String) : String := "\n".intercalate ls

end TranslationAudit.Text
