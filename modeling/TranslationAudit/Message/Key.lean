import TranslationAudit.Text.Blank

/-! # Message keys

* `Key`: package, source and identifier, which together name one message; keys are ordered by
  these three in turn.
* `pluralFormId`, `splitPluralForm`: the identifier `base[n]` of form `n` of a plural message, and
  the reading of such an identifier.
-/

namespace TranslationAudit

/-- The name of one message across a project. -/
structure Key where
  package : String
  source : String
  id : String
deriving DecidableEq, Inhabited

namespace Key

/-- The source of a message that names none. -/
def defaultSource : String := "Main"

/-- The forms that every plural message is expected to have. -/
def expectedForms : List Nat := [0, 1]

instance : Ord Key where
  compare a b :=
    (compare a.package b.package).then ((compare a.source b.source).then (compare a.id b.id))

def display (k : Key) : String := k.package ++ ":" ++ k.source ++ ":" ++ k.id

end Key

/-! ## Plural forms -/

/-- The identifier of a plural form, such as `cards.count[1]`. -/
def pluralFormId (base : String) (form : Nat) : String := base ++ "[" ++ toString form ++ "]"

def Key.pluralForm (k : Key) (form : Nat) : Key := { k with id := pluralFormId k.id form }

/-- Form indexes are 64 bit words. -/
def formLimit : Nat := UInt64.size

/-- The value of a run of decimal digits. -/
def digitsValue (ds : List Char) : Nat :=
  ds.foldl (fun n d => 10 * n + (d.toNat - '0'.toNat)) 0

/-- Splits `base[n]` at its last bracket. The base must not be empty, and `n` must be a decimal
numeral below `formLimit`; it may have leading zeros. -/
def splitPluralForm (id : String) : Option (String × Nat) :=
  match Text.cutAtLast? '[' id.toList with
  | none => none
  | some (base, rest) =>
    match Text.before? [']'] rest with
    | none => none
    | some digits =>
      if base.isEmpty || digits.isEmpty || !digits.all Char.isDigit then none
      else if digitsValue digits < formLimit then some (String.ofList base, digitsValue digits)
      else none

end TranslationAudit
