import TranslationAudit.Collect.NodeType.Checked
import TranslationAudit.FileTree

/-! # Contexts of translations

The text around a reference with what can fail on the way: the sums of two line numbers, which are
words, and the slice of the lines. The result is none if one does.

* `Overflow`: what happens to a sum that is no word.
* `linesAround?`, `contextSnippet?`: the text around a line and around a reference.
-/

namespace TranslationAudit.Translation

/-- The sum of two line numbers. They are words of 64 bits, and a larger sum wraps around. -/
def addLines (m n : Nat) : Nat := (m + n) % UInt64.size

namespace Checked

open NodeType.Checked (lineSlice?)

/-- What happens to a sum that does not fit into a word of 64 bits: where sums are checked the
program stops, elsewhere they wrap around. -/
inductive Overflow where
  | stops
  | wraps
deriving DecidableEq

def Overflow.add? : Overflow → Nat → Nat → Option Nat
  | .stops, m, n => if m + n < UInt64.size then some (m + n) else none
  | .wraps, m, n => some (addLines m n)

/-- The lines of a text that are at most `window` lines away from a line, if there is such a
line. -/
def linesAround? (o : Overflow) (text : String) (line window : Nat) : Option (Option String) :=
  let lines := Text.lines text.toList
  if line = 0 || line > lines.length then some none
  else do
    let before ← o.add? window 1
    let stop ← o.add? line window
    let clipped ← lineSlice? lines (line - before) (min stop lines.length)
    return some (Text.unlines (clipped.map String.ofList))

/-- The text around a reference: the block of its node type, or the lines of its file. -/
def contextSnippet? (o : Overflow) (tree : FileTree) (r : Reference) (window : Nat) :
    Option (Option String) :=
  if r.format = .yaml && r.schemaContext.isSome then some r.schemaContext
  else
    match tree.read r.file with
    | .error _ => some none
    | .ok text => linesAround? o text r.line window

end Checked

end TranslationAudit.Translation
