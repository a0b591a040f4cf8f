import TranslationAudit.Text.Lowercase

/-! # Natural order

The order in which people sort labels: runs of digits count as numbers, letters regardless of case.

* `compareNumerals`: digit runs by value, a longer run without leading zeros being larger.
* `compareNatural`: the order of texts. Texts that differ in case or leading zeros only are told
  apart by plain order, so that only equal texts compare as equal.
* `sortNatural`: a stable sort of values by a label.
-/

namespace TranslationAudit.Text

def compareNumerals (a b : List Char) : Ordering :=
  let x := a.dropWhile (· = '0')
  let y := b.dropWhile (· = '0')
  (compare x.length y.length).then (compare x y)

/-- Natural order up to case and leading zeros. -/
def compareFolded : List Char → List Char → Ordering
  | [], [] => .eq
  | [], _ :: _ => .lt
  | _ :: _, [] => .gt
  | a :: as, b :: bs =>
    if a.isDigit && b.isDigit then
      (compareNumerals ((a :: as).takeWhile Char.isDigit) ((b :: bs).takeWhile Char.isDigit)).then
        (compareFolded (as.dropWhile Char.isDigit) (bs.dropWhile Char.isDigit))
    else
      (compare (lowercase a) (lowercase b)).then (compareFolded as bs)
termination_by s => s.length
decreasing_by
  · have shorter : (as.dropWhile Char.isDigit).length ≤ as.length :=
      (List.dropWhile_suffix Char.isDigit).length_le
    simp only [List.length_cons]
    omega
  · simp only [List.length_cons]
    omega

/-- Natural order. -/
def compareNatural (a b : String) : Ordering :=
  (compareFolded a.toList b.toList).then (compare a b)

/-- A stable sort in the natural order of labels. -/
def sortNatural {α : Type} (label : α → String) (xs : List α) : List α :=
  xs.mergeSort fun a b => compareNatural (label a) (label b) != .gt

end TranslationAudit.Text
