import TranslationAudit.Catalog.Location

/-! # Which catalogs take part

* `Filters`: the locales, the package and the source that are asked for.
* `Filters.location?`: the location of a file, if it is a catalog that takes part.
-/

namespace TranslationAudit.Catalog

/-- What is asked for. No locales stand for all locales. -/
structure Filters where
  locales : List String := []
  package : Option String := none
  source : Option String := none
deriving DecidableEq, Inhabited

namespace Filters

def accepts (f : Filters) (package source : String) : Bool :=
  f.package.all (· = package) && f.source.all (· = source)

def acceptsLocale (f : Filters) (locale : String) : Bool :=
  f.locales.isEmpty || f.locales.contains locale

/-- The location of a path, if it is that of a catalog whose package and source are asked for. A
package that is asked for is taken to be the one of every catalog. -/
def location? (f : Filters) (path : String) : Option Location :=
  if isCatalogFile path then
    (Location.ofPath? path f.package).filter fun l => f.accepts l.package l.source
  else none

end Filters

end TranslationAudit.Catalog
