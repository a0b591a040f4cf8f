import TranslationAudit.Reconcile

/-! # Units to add

* `Provenance`: where a generated text comes from.
* `Addition`: a unit to add to a catalog.
* `Addition.ofMissing`: the addition that supplies a missing translation.
-/

namespace TranslationAudit.Catalog

/-- Where a generated text comes from. -/
structure Provenance where
  provider : Option String := none
  model : Option String := none
  generatedAt : Option String := none
deriving DecidableEq, Inhabited

/-- A unit to add to a catalog. -/
structure Addition where
  locale : String
  key : Key
  /-- The text of the message in the code. -/
  fallback : String
  source : String
  target : String
  placeholders : Dict String String
  /-- The provenance of a generated target. -/
  provenance : Option Provenance := none
deriving DecidableEq, Inhabited

namespace Addition

def ofFallback (locale : String) (key : Key) (fallback : String)
    (placeholders : Dict String String) : Addition where
  locale
  key := { key with id := Text.trimmed key.id }
  fallback
  source := fallback
  target := fallback
  placeholders

def isGenerated (a : Addition) : Bool := a.provenance.isSome

/-- The addition that supplies a missing translation. Without a text in the code, the identifier
and the placeholders stand in for it. -/
def ofMissing (m : MissingTranslation) : Addition :=
  let text := m.reference.fallbackText.getD (withHints m.key.id m.reference.placeholders)
  .ofFallback m.locale m.key text m.reference.placeholders

end Addition

end TranslationAudit.Catalog
