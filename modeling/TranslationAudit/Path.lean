import TranslationAudit.Collection.SortedMap
import TranslationAudit.Text.Blank
import TranslationAudit.Text.Lowercase

/-! # Paths

Paths are texts with slashes. Two paths with the same components name the same place, so paths are
compared and sorted by components, but printed as they were written.

* `Path.components`: the steps of a path. Repeated slashes and inner single dots are no steps.
* `Path.join`, `Path.parent?`, `Path.extension?`: the usual operations.
* `Path.relativeTo`: a path below a base, for matching and printing.
-/

namespace TranslationAudit

namespace Path

/-- A step of a path. -/
inductive Component where
  | root
  | current
  | parent
  | name (s : String)
deriving DecidableEq, Inhabited

namespace Component

def rank : Component → Nat
  | .root => 0
  | .current => 1
  | .parent => 2
  | .name _ => 3

def text : Component → String
  | .root => "/"
  | .current => "."
  | .parent => ".."
  | .name s => s

instance : Ord Component where
  compare a b := (compare a.rank b.rank).then (compare a.text b.text)

end Component

def isAbsolute (p : String) : Bool := p.toList.head? = some '/'

def component (piece : List Char) : Component :=
  if piece = ['.', '.'] then .parent else .name (String.ofList piece)

/-- The steps of a path. -/
def components (p : String) : List Component :=
  let pieces := Text.split (· = '/') p.toList
  let start : List Component :=
    if isAbsolute p then [.root] else if pieces.head? = some ['.'] then [.current] else []
  start ++ (pieces.filter fun s => s ≠ [] && s ≠ ['.']).map component

def compareLists : List Component → List Component → Ordering
  | [], [] => .eq
  | [], _ :: _ => .lt
  | _ :: _, [] => .gt
  | a :: as, b :: bs => (compare a b).then (compareLists as bs)

/-- The order of paths by components. -/
def comparePaths (a b : String) : Ordering := compareLists (components a) (components b)

/-- A path taken from a base. An absolute path stays as it is. -/
def join (base p : String) : String :=
  if isAbsolute p || base.isEmpty then p
  else if base.toList.getLast? = some '/' then base ++ p
  else base ++ "/" ++ p

/-- Whether a piece between slashes is no step when it stands within a path. -/
def isFiller (piece : List Char) : Bool := piece = [] || piece = ['.']

/-- Pieces without fillers at the end. -/
def dropFillers (pieces : List (List Char)) : List (List Char) :=
  (pieces.reverse.dropWhile isFiller).reverse

def joinPieces (pieces : List (List Char)) : String := String.ofList (['/'].intercalate pieces)

/-- The path without its last step. What is left is written as before. -/
def parent? (p : String) : Option String :=
  match Text.split (· = '/') p.toList with
  | [] => none
  | first :: rest =>
    if isFiller first then
      match dropFillers rest with
      | [] => if first = ['.'] then some "" else none
      | steps =>
        match dropFillers steps.dropLast with
        | [] => some (if first = ['.'] then "." else "/")
        | left => some (joinPieces (first :: left))
    else
      match dropFillers rest with
      | [] => some ""
      | steps => some (joinPieces (dropFillers (first :: steps.dropLast)))

/-- A path and those without its last steps, up to a number of them. -/
def ancestorsUpTo : Nat → String → List String
  | 0, p => [p]
  | n + 1, p => p :: ((parent? p).map (ancestorsUpTo n)).getD []

/-- A path and all directories that lead to it, the nearest first. -/
def ancestors (p : String) : List String := ancestorsUpTo (components p).length p

/-- The last step of a path, if it is a name. -/
def fileName? (p : String) : Option String :=
  match (components p).getLast? with
  | some (.name s) => some s
  | _ => none

/-- What follows the last dot of the file name, unless the dot begins the name. -/
def extension? (p : String) : Option String :=
  (fileName? p).bind fun name =>
    match Text.cutAtLast? '.' name.toList with
    | some (_ :: _, ext) => some (String.ofList ext)
    | _ => none

def hasExtension (p : String) (extensions : List String) : Bool :=
  (extension? p).any extensions.contains

def hasExtensionIgnoringCase (p : String) (extension : String) : Bool :=
  (extension? p).any fun e => Text.equalIgnoringCase e extension

def stripComponents : List Component → List Component → Option (List Component)
  | [], cs => some cs
  | _ :: _, [] => none
  | b :: bs, c :: cs => if b = c then stripComponents bs cs else none

/-- A path with slashes only. -/
def withSlashes (p : String) : String :=
  String.ofList (p.toList.map fun c => if c = '\\' then '/' else c)

/-- A path relative to a base. A path outside the base is given whole. -/
def relativeTo (base p : String) : String :=
  match stripComponents (components base) (components p) with
  | none => withSlashes p
  | some cs => "/".intercalate (cs.map Component.text)

end Path

end TranslationAudit
