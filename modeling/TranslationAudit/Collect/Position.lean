/-! # Lines of offsets

* `lineAt`: the line, counted from 1, of an offset in a text.
-/

namespace TranslationAudit

/-- The line of an offset, counted from 1. -/
def lineAt (text : List Char) (offset : Nat) : Nat := (text.take offset).count '\n' + 1

end TranslationAudit
