import TranslationAudit.Catalog.Location
import TranslationAudit.Catalog.Document

/-! # The index of a project's catalogs

* `Entry`: a concrete unit of a catalog in a locale.
* `Index`: all entries, plural groups and catalog files of a project, with what went wrong.
* `Index.addEntry`, `Index.addForm`, `Index.addFile`: how an index grows.
-/

namespace TranslationAudit.Catalog

/-- A key in a locale. -/
structure LocalKey where
  locale : String
  key : Key
deriving DecidableEq, Inhabited

instance : Ord LocalKey where
  compare a b := (compare a.locale b.locale).then (compare a.key b.key)

/-- A source of a package. -/
structure PackageSource where
  package : String
  source : String
deriving DecidableEq, Inhabited

instance : Ord PackageSource where
  compare a b := (compare a.package b.package).then (compare a.source b.source)

/-- A concrete unit of a catalog. -/
structure Entry where
  locale : String
  key : Key
  /-- The catalog's file. -/
  file : String
  source : Option String := none
  target : Option String := none
  state : Option String := none
deriving DecidableEq, Inhabited

def Entry.localKey (e : Entry) : LocalKey := ⟨e.locale, e.key⟩

/-- The file of a catalog, with the metadata it was read with. -/
structure File where
  path : String
  metadata : Metadata := {}
deriving DecidableEq, Inhabited

/-- A catalog that could not be read or merged. -/
structure Fault where
  message : String
  /-- Named details about the catalog. -/
  context : Dict String String := .empty
deriving DecidableEq, Inhabited

/-- What a project's catalogs hold. -/
structure Index where
  entries : SortedMap LocalKey Entry := .empty
  /-- The identifiers of the forms of each plural message. -/
  pluralGroups : SortedMap LocalKey (List String) := .empty
  files : SortedMap Location File := .empty
  /-- The sources with a file or an entry, ascending. -/
  sources : List PackageSource := []
  /-- The locations at which a catalog was expected. -/
  missingCatalogs : List Location := []
  faults : List Fault := []
deriving DecidableEq, Inhabited

namespace Index

def empty : Index := {}

/-- Adds an entry. It replaces an earlier one with its key and locale. -/
def addEntry (index : Index) (e : Entry) : Index :=
  { index with
    entries := index.entries.insert e.localKey e
    sources := insertAscending ⟨e.key.package, e.key.source⟩ index.sources }

/-- Adds a form to a plural message, unless it is known. -/
def addForm (index : Index) (base : LocalKey) (formId : String) : Index :=
  { index with
    pluralGroups := index.pluralGroups.alter base fun known =>
      let forms := known.getD []
      if formId ∈ forms then forms else forms ++ [formId] }

/-- Adds a catalog file. It replaces an earlier one at its location. -/
def addFile (index : Index) (l : Location) (file : File) : Index :=
  { index with
    files := index.files.insert l file
    sources := insertAscending ⟨l.package, l.source⟩ index.sources }

def addMissing (index : Index) (l : Location) : Index :=
  { index with missingCatalogs := index.missingCatalogs ++ [l] }

def addFault (index : Index) (f : Fault) : Index :=
  { index with faults := index.faults ++ [f] }

/-! ## Looking up -/

def entry? (index : Index) (locale : String) (key : Key) : Option Entry :=
  index.entries.get? ⟨locale, key⟩

/-- The forms of a plural message, if there are any. -/
def forms? (index : Index) (locale : String) (base : Key) : Option (List String) :=
  index.pluralGroups.get? ⟨locale, base⟩

def file? (index : Index) (l : Location) : Option File := index.files.get? l

def hasFaults (index : Index) : Bool := !index.faults.isEmpty

/-- The locales with a file or an entry, ascending. -/
def locales (index : Index) : List String :=
  ascending (index.files.keys.map Location.locale ++ index.entries.keys.map LocalKey.locale)

end Index

end TranslationAudit.Catalog
