import TranslationAudit.Text.Blank

/-! # Locales

* `isLocale`: whether a text is a locale identifier, such as `de`, `de_CH` or `zh-Hant-TW`.
* `parents`: the identifiers that a locale specialises, nearest first.
* `chain?`: the locales in which a text is looked for: the locale, its parents, then the fallbacks.
-/

namespace TranslationAudit.Locale

def isJoint (c : Char) : Bool := c = '_' || c = '-'

def isLanguage (part : List Char) : Bool :=
  2 ≤ part.length && part.length ≤ 3 && part.all Char.isAlpha

/-- Whether a part narrows a language: two to eight ASCII letters or digits. -/
def isSubtag (part : List Char) : Bool :=
  2 ≤ part.length && part.length ≤ 8 && part.all Char.isAlphanum

def isLocale (s : String) : Bool :=
  match Text.split isJoint s.toList with
  | [] => false
  | language :: subtags => isLanguage language && subtags.all isSubtag

/-- What is left of a text that is cut off before its last joint, and cut off again until it has no
joint. The text is given in reverse. -/
def cuts : List Char → List (List Char)
  | [] => []
  | c :: r => if isJoint c then r.reverse :: cuts r else cuts r

/-- The texts that end right before a joint of a text, the longest first. -/
def parents (s : List Char) : List (List Char) := cuts s.reverse

/-- The list with a locale at its end, unless it is there. -/
def addFallback (locales : List String) (fallback : String) : List String :=
  if fallback ∈ locales then locales else locales ++ [fallback]

/-- The locales in which the texts of a locale are looked for, or nothing for what is no locale. -/
def chain? (fallbacks : List String) (locale : String) : Option (List String) :=
  if isLocale locale then
    some (fallbacks.foldl addFallback (locale :: (parents locale.toList).map String.ofList))
  else none

end TranslationAudit.Locale
