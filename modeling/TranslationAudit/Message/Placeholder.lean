import TranslationAudit.Collection.Dict
import TranslationAudit.Collection.SortedMap
import TranslationAudit.Text.Blank

/-! # Placeholders in texts

A placeholder is a name in braces, such as {name}.

* `placeholderAt?`: the name of the placeholder with which a text begins.
* `placeholders`: the names of the placeholders of a text, found by a scan from the left.
* `placeholderNames`: these names, ascending.
* `withHints`: an identifier followed by placeholders, for a message without a text.
-/

namespace TranslationAudit

def isPlaceholderChar (c : Char) : Bool :=
  c.isAlphanum || c = '_' || c = '.' || c = ':' || c = '-'

/-- The name of the placeholder with which a text begins. -/
def placeholderAt? : List Char → Option (List Char)
  | [] => none
  | c :: r =>
    let name := r.takeWhile isPlaceholderChar
    let closed := (r.dropWhile isPlaceholderChar).head? = some '\x7d'
    if c = '\x7b' && !name.isEmpty && closed then some name else none

/-- The names of the placeholders of a text behind its first `passed` characters. Behind a
placeholder the scan goes on after its closing brace. -/
def placeholdersFrom : Nat → List Char → List (List Char)
  | _, [] => []
  | passed + 1, _ :: r => placeholdersFrom passed r
  | 0, c :: r =>
    match placeholderAt? (c :: r) with
    | some name => name :: placeholdersFrom (name.length + 1) r
    | none => placeholdersFrom 0 r

/-- The names of the placeholders of a text, in the order of the text. -/
def placeholders (s : List Char) : List (List Char) := placeholdersFrom 0 s

/-- The names of the placeholders of a text, ascending and each once. -/
def placeholderNames (text : String) : List String :=
  ascending ((placeholders text.toList).map String.ofList)

def placeholder (name : String) : String := "\x7b" ++ name ++ "\x7d"

/-- An identifier followed by the placeholders that are passed to it. -/
def withHints (id : String) (passed : Dict String String) : String :=
  Text.trimmed (id ++ " " ++ " ".intercalate (passed.keys.map placeholder))

end TranslationAudit
