import TranslationAudit.Catalog.Merge

/-! # Building the index

* `buildIndex`: the index of loaded catalogs. Catalogs that cannot be read are faults, but their
  files count as present.
-/

namespace TranslationAudit.Catalog

def mergeFailed : String := "Failed to load catalog via locale merge provider"

namespace LoadedCatalog

def context (c : LoadedCatalog) : Dict String String :=
  .ofList [("file", c.path), ("locale", c.location.locale), ("packageKey", c.location.package),
    ("sourceName", c.location.source)]

def localKey (c : LoadedCatalog) (id : String) : LocalKey :=
  ⟨c.location.locale, ⟨c.location.package, c.location.source, id⟩⟩

/-- The entry of a concrete unit. Its texts are the most specific merged ones. -/
def entry (c : LoadedCatalog) (merged : Dict String (List Texts)) (id : String) (u : TransUnit) :
    Entry :=
  let texts := ((merged.get? id).bind List.head?).getD u.texts
  { locale := c.location.locale
    key := (c.localKey id).key
    file := c.path
    source := texts.source
    target := texts.target
    state := u.state }

end LoadedCatalog

namespace Index

def addFormUnit (c : LoadedCatalog) (merged : Dict String (List Texts)) (base : String)
    (index : Index) (form : Nat × TransUnit) : Index :=
  let id := pluralFormId base form.1
  (index.addForm (c.localKey base) id).addEntry (c.entry merged id form.2)

def addUnit (c : LoadedCatalog) (merged : Dict String (List Texts)) (index : Index)
    (unit : String × CatalogUnit) : Index :=
  match unit.2 with
  | .single u => index.addEntry (c.entry merged unit.1 u)
  | .plural g => g.forms.entries.foldl (addFormUnit c merged unit.1) index

/-- Adds the units of a catalog. If texts cannot be merged, each unit keeps its own. -/
def addUnits (pool : Pool) (c : LoadedCatalog) (d : Document) (index : Index) : Index :=
  if d.isEmpty then index
  else
    match pool.merge c.name c.location.locale with
    | .ok merged => d.units.entries.foldl (addUnit c merged) index
    | .error e =>
      let fault := ⟨mergeFailed, c.context.insert "reason" e.message⟩
      d.units.entries.foldl (addUnit c .empty) (index.addFault fault)

/-- Adds a loaded catalog if its locale is asked for. -/
def addCatalog (filters : Filters) (pool : Pool) (index : Index) (c : LoadedCatalog) : Index :=
  if filters.acceptsLocale c.location.locale then
    match c.document with
    | .ok d => (index.addFile c.location ⟨c.path, d.metadata⟩).addUnits pool c d
    | .error e => (index.addFault ⟨e.message, c.context⟩).addFile c.location ⟨c.path, {}⟩
  else index

/-- The locations at which a catalog is missing: those of the locales that are asked for by name
and of the sources that are known and asked for. -/
def absent (filters : Filters) (index : Index) : List Location :=
  (index.sources.filter fun s => filters.accepts s.package s.source).flatMap fun s =>
    (filters.locales.map fun locale => (⟨locale, s.package, s.source⟩ : Location)).filter fun l =>
      (index.file? l).isNone

end Index

def buildIndex (filters : Filters) (pool : Pool) (catalogs : List LoadedCatalog) : Index :=
  let index := catalogs.foldl (Index.addCatalog filters pool) .empty
  (index.absent filters).foldl Index.addMissing index

end TranslationAudit.Catalog
