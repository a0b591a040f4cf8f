import TranslationAudit.Message.Key

/-! # From written identifiers to keys

Code names a message by an identifier, a package and a source, or by all three in one text
`Package:Source:id`.

* `foldSource`: a source written as a path becomes a dotted name.
* `normalizeSource`: the source that an optional written one stands for.
* `resolveKey`: the key, unless identifier or package is missing.
-/

namespace TranslationAudit

def foldSource (path : String) : String :=
  let folded := path.toList.map fun c => if c = '\\' ∨ c = '/' then '.' else c
  let name := Text.stripWhile (· = '.') folded
  if name.isEmpty then Key.defaultSource else String.ofList name

/-- The part of a text before its first colon. -/
def beforeColon (s : List Char) : List Char := s.takeWhile (· ≠ ':')

/-- The source that a written one stands for. What follows a colon is dropped. -/
def normalizeSource : Option String → String
  | none => Key.defaultSource
  | some source =>
    let s := Text.trim source.toList
    if s.isEmpty then Key.defaultSource else foldSource (String.ofList (beforeColon s))

/-- Reads `Package:Source:id`; the identifier may hold further colons. -/
def splitShorthand (id : List Char) : Option (String × String × List Char) :=
  match Text.cutAt? ':' id with
  | none => none
  | some (package, rest) =>
    match Text.cutAt? ':' rest with
    | none => none
    | some (source, id) => some (String.ofList package, String.ofList source, id)

/-- A text that was given and is not empty, or else another. -/
def givenOr (given : Option String) (other : String) : String :=
  match given with
  | none => other
  | some s => if s.isEmpty then other else s

/-- The key of an identifier with an optional package and source. The shorthand supplies a package
and a source that were not given. There is no key without identifier or package. -/
def resolveKey (identifier : String) (package source : Option String) : Option Key :=
  let written := Text.trim identifier.toList
  let (package, source, id) := match splitShorthand written with
    | none => (package, source, written)
    | some (p, s, id) => (some (givenOr package p), some (givenOr source s), Text.trim id)
  let package := Text.trimmed (package.getD "")
  if id.isEmpty || package.isEmpty then none
  else some ⟨package, normalizeSource source, String.ofList id⟩

end TranslationAudit
