import TranslationAudit.Catalog.Document
import TranslationAudit.Text.Lowercase

/-! # Metadata for writing

* `Header`: the metadata of a catalog with nothing left open.
* `Header.resolve`: fills what a catalog leaves open from its package and locale.
* `Header.writesTarget`: whether units of the catalog have translations.
-/

namespace TranslationAudit.Catalog

/-- The metadata that a catalog is written with. -/
structure Header where
  productName : String
  sourceLanguage : String
  targetLanguage : Option String
  extractedFrom : String
  datatype : String
deriving DecidableEq, Inhabited

namespace Header

/-- Fills what metadata leave open. An empty product name or source language counts as absent, an
empty target language does not. -/
def resolve (m : Metadata) (package locale : String) : Header :=
  let nonEmpty (s : Option String) : Option String := s.filter fun v => !v.isEmpty
  let sourceLanguage := (nonEmpty m.sourceLanguage).getD "en"
  { productName := (nonEmpty m.productName).getD package
    sourceLanguage
    targetLanguage := m.targetLanguage.or
      (if Text.equalIgnoringCase sourceLanguage locale then none else some locale)
    extractedFrom := m.extractedFrom.getD ""
    datatype := m.datatype.getD "plaintext" }

/-- The target language, unless it is empty. -/
def target? (h : Header) : Option String := h.targetLanguage.filter fun t => !t.isEmpty

def writesTarget (h : Header) (locale : String) : Bool :=
  h.target?.isSome || !Text.equalIgnoringCase h.sourceLanguage locale

/-- The attributes of the file element, in the order in which they are written. -/
def attributes (h : Header) : List (String × String) :=
  [("original", h.extractedFrom), ("product-name", h.productName),
   ("source-language", h.sourceLanguage), ("datatype", h.datatype)] ++
    (h.target?.map fun t => ("target-language", t)).toList

end Header

end TranslationAudit.Catalog
