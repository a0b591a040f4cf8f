import TranslationAudit.Collection.SortedMap
import TranslationAudit.Text.Blank

/-! # Lists in a text

* `items`: the items of texts in which commas or blanks stand between items, such as `de, fr en`.
-/

namespace TranslationAudit.Text

def isSeparator (c : Char) : Bool := c = ',' || isBlank c

def itemsOf (s : String) : List String :=
  ((split isSeparator s.toList).filter (· ≠ [])).map String.ofList

/-- The items of several texts, each item at its first place. -/
def items (texts : List String) : List String := dedup (texts.flatMap itemsOf)

end TranslationAudit.Text
