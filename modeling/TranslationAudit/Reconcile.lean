import TranslationAudit.Catalog.Index
import TranslationAudit.Glob
import TranslationAudit.Message.Placeholder
import TranslationAudit.Message.Reference

/-! # Comparing references with catalogs

Every message that is referenced needs an entry in every locale, and a plural message an entry for
each expected form. Entries must not use placeholders that the reference does not pass.

* `reconcile`: the missing translations and the placeholder mismatches.
* `unusedEntries`: the entries that no reference uses.
-/

namespace TranslationAudit

/-- A message without an entry in a locale. -/
structure MissingTranslation where
  locale : String
  /-- The missing key; for a plural message that of a form. -/
  key : Key
  reference : Reference
deriving DecidableEq, Inhabited

/-- Placeholders that a reference does not pass. -/
structure PlaceholderMismatch where
  locale : String
  key : Key
  /-- The names that are used and not passed, ascending. -/
  missing : List String
  /-- The names that the reference passes, in its order. -/
  passed : List String
  /-- The names that the entry uses, ascending. -/
  used : List String
  reference : Reference
  entry : Option Catalog.Entry
deriving DecidableEq, Inhabited

/-- What is compared. No locales and no patterns stand for all. -/
structure Scope where
  locales : List String := []
  package : Option String := none
  source : Option String := none
  idPatterns : List Glob := []
deriving Inhabited

def Scope.accepts (s : Scope) (k : Key) : Bool :=
  s.package.all (· = k.package) && s.source.all (· = k.source) &&
    (s.idPatterns.isEmpty || s.idPatterns.any (·.accepts k.id))

def Scope.acceptsLocale (s : Scope) (locale : String) : Bool :=
  s.locales.isEmpty || s.locales.contains locale

/-- What a comparison finds. -/
structure Reconciliation where
  missing : List MissingTranslation := []
  mismatches : List PlaceholderMismatch := []
deriving DecidableEq, Inhabited

/-! ## Placeholders -/

def Catalog.Entry.usedNames (e : Catalog.Entry) : List String :=
  (e.source.toList ++ e.target.toList).flatMap placeholderNames

/-- The mismatch between what a reference passes and what an entry and the fallback use. -/
def detectMismatch (r : Reference) (locale : String) (key : Key) (entry : Option Catalog.Entry) :
    Option PlaceholderMismatch :=
  let used := ascending (entry.toList.flatMap Catalog.Entry.usedNames)
  let expected := ascending (used ++ r.fallback.toList.flatMap placeholderNames)
  let missing := expected.filter fun name => !r.placeholders.contains name
  if missing.isEmpty then none
  else some { locale, key, missing, passed := r.placeholders.keys, used, reference := r, entry }

/-! ## References -/

def formMismatches (index : Catalog.Index) (locale : String) (r : Reference)
    (forms : List String) : List PlaceholderMismatch :=
  forms.filterMap fun id =>
    let key := { r.key with id }
    (index.entry? locale key).bind fun e => detectMismatch r locale key (some e)

def reconcilePlural (index : Catalog.Index) (locale : String) (r : Reference) : Reconciliation :=
  let forms := (index.forms? locale r.key).getD []
  let present := forms.filterMap fun id => (splitPluralForm id).map Prod.snd
  let absent := Key.expectedForms.filter fun n => !present.contains n
  { missing := absent.map fun n => ⟨locale, r.key.pluralForm n, r⟩
    mismatches := formMismatches index locale r forms }

/-- What is found for a reference that is not plural. A plural group counts as its entry. -/
def reconcilePlain (index : Catalog.Index) (locale : String) (r : Reference) : Reconciliation :=
  match index.entry? locale r.key with
  | some e => { mismatches := (detectMismatch r locale r.key (some e)).toList }
  | none =>
    match index.forms? locale r.key with
    | some forms => { mismatches := formMismatches index locale r forms }
    | none => { missing := [⟨locale, r.key, r⟩] }

def reconcileReference (index : Catalog.Index) (locale : String) (r : Reference) :
    Reconciliation :=
  if r.isPlural then reconcilePlural index locale r else reconcilePlain index locale r

/-- What is found for the canonical references, by key and then by locale. Without locales in the
scope, all locales of the catalogs are compared. -/
def reconcile (references : ReferenceIndex) (index : Catalog.Index) (scope : Scope) :
    Reconciliation :=
  let locales := if scope.locales.isEmpty then index.locales else scope.locales
  let found := (references.references.filter fun r => scope.accepts r.key).flatMap fun r =>
    locales.map fun locale => reconcileReference index locale r
  { missing := found.flatMap Reconciliation.missing
    mismatches := found.flatMap Reconciliation.mismatches }

/-! ## Entries -/

/-- Whether a key is referenced, itself or as a form of a plural message. -/
def isReferenced (references : ReferenceIndex) (k : Key) : Bool :=
  references.contains k ||
    (splitPluralForm k.id).any fun (base, _) => references.contains { k with id := base }

def unusedEntries (references : ReferenceIndex) (index : Catalog.Index) (scope : Scope) :
    List Catalog.Entry :=
  index.entries.values.filter fun e =>
    scope.acceptsLocale e.locale && scope.accepts e.key && !isReferenced references e.key

end TranslationAudit
