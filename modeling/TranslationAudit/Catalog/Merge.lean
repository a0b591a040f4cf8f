import TranslationAudit.Catalog.Error
import TranslationAudit.Catalog.Filter
import TranslationAudit.Catalog.Index
import TranslationAudit.Locale

/-! # Texts along locale chains

A regional catalog inherits texts from the catalog of its language.

* `LoadedCatalog`: a catalog file with its location and what reading it gave.
* `Pool`: the texts of all loaded catalogs, with the fallback locales.
* `Pool.merge`: the texts that a locale sees in a catalog, most specific first.
-/

namespace TranslationAudit.Catalog

/-- A catalog file after reading. -/
structure LoadedCatalog where
  path : String
  location : Location
  document : Except Error Document

def loadCatalogs (read : String → Except Error Document) (filters : Filters)
    (paths : List String) : List LoadedCatalog :=
  paths.filterMap fun path =>
    (filters.location? path).map fun location => ⟨path, location, read path⟩

/-- The name of a catalog apart from its locale. -/
def catalogName (package source : String) : String := package ++ ":" ++ source

def LoadedCatalog.name (c : LoadedCatalog) : String :=
  catalogName c.location.package c.location.source

/-- The texts of a unit. -/
structure Texts where
  source : Option String
  target : Option String
deriving DecidableEq, Inhabited

def TransUnit.texts (u : TransUnit) : Texts := ⟨u.source, u.target⟩

/-- The texts of all loaded catalogs by locale and name. -/
structure Pool where
  catalogs : Dict (String × String) (List (String × Texts)) := .empty
  fallbacks : List String := []
deriving Inhabited

/-- A text that is no locale identifier. -/
structure InvalidLocale where
  text : String
deriving DecidableEq, Inhabited

def InvalidLocale.message (e : InvalidLocale) : String :=
  "\"" ++ e.text ++ "\" is not a valid locale identifier"

namespace Pool

/-- The concrete units of a loaded catalog, if it could be read. -/
def textsOf? (c : LoadedCatalog) : Option ((String × String) × List (String × Texts)) :=
  match c.document with
  | .error _ => none
  | .ok d => some ((c.location.locale, c.name), d.concreteUnits.map fun (id, u) => (id, u.texts))

/-- The texts of loaded catalogs. Of several catalogs of one locale and name the last counts. -/
def ofCatalogs (catalogs : List LoadedCatalog) (fallbacks : List String) : Pool :=
  ⟨.ofList (catalogs.filterMap textsOf?), fallbacks⟩

def chain (pool : Pool) (locale : String) : Except InvalidLocale (List String) :=
  match Locale.chain? pool.fallbacks locale with
  | none => .error ⟨locale⟩
  | some locales => .ok locales

def addTexts (merged : Dict String (List Texts)) (unit : String × Texts) :
    Dict String (List Texts) :=
  merged.insert unit.1 ((merged.get? unit.1).getD [] ++ [unit.2])

/-- The texts of each identifier of a catalog that a locale sees, most specific first. -/
def merge (pool : Pool) (name locale : String) :
    Except InvalidLocale (Dict String (List Texts)) :=
  (pool.chain locale).map fun locales =>
    (locales.flatMap fun l => (pool.catalogs.get? (l, name)).getD []).foldl addTexts .empty

end Pool

end TranslationAudit.Catalog
