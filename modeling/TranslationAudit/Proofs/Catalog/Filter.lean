import TranslationAudit.Proofs.Catalog.Location
import TranslationAudit.Proofs.Catalog.Selection

/-! # What filters select

* `indexOf_filters`: locales and a source that are asked for restrict an index, and change nothing
  of what is left.
* `selects_package`: the catalogs of a package, indexed as its, are the part of the whole index
  that bears its name.
* `isSome_file?_override`: a package that is asked for is the one of every catalog that is given.
-/

namespace TranslationAudit.Catalog

section Locations

variable {filters : Filters} {path : String} {l : Location}

theorem location?_eq_some :
    filters.location? path = some l ↔
      isCatalogFile path = true ∧ Location.ofPath? path filters.package = some l ∧
        filters.accepts l.package l.source = true := by
  unfold Filters.location?
  by_cases hfile : isCatalogFile path = true
  · simp only [hfile, if_true, Option.filter_eq_some_iff, true_and]
  · simp [hfile]

/-- Catalogs that fewer filters or paths leave, if they are told by their locations. -/
theorem loadCatalogs_filter {read : String → Except Error Document} {filters' : Filters}
    (keep : String → Bool) (p : Location → Bool) (paths : List String)
    (h : ∀ path, (if keep path then filters'.location? path else none) =
      (filters.location? path).filter p) :
    loadCatalogs read filters' (paths.filter keep) =
      (loadCatalogs read filters paths).filter fun c => p c.location := by
  unfold loadCatalogs
  rw [List.filterMap_filter, List.filter_filterMap]
  apply List.filterMap_congr
  intro path _
  calc (if keep path then (filters'.location? path).map fun l => ⟨path, l, read path⟩ else none)
      = (if keep path then filters'.location? path else none).map fun l =>
          (⟨path, l, read path⟩ : LoadedCatalog) := by split <;> rfl
    _ = ((filters.location? path).filter p).map fun l => ⟨path, l, read path⟩ := by rw [h]
    _ = _ := by rw [Option.filter_map]; rfl

/-- The files that take part are in the index. -/
theorem Listed.isSome_file? {paths : List String} (h : Listed filters paths path l)
    (fallbacks : List String) (t : FileTree) :
    (Index.file? (indexOf filters fallbacks paths t) l).isSome = true := by
  have hc : ⟨path, l, Document.load t path⟩ ∈ loadCatalogs (Document.load t) filters paths :=
    mem_loadCatalogs.2 ⟨h.mem, h.location, rfl⟩
  exact (buildIndex_file_isSome hc h.accepted :)

end Locations

/-! ## Locales and sources -/

section Filters

variable {read : String → Except Error Document} {paths : List String}

theorem loadCatalogs_source (filters : Filters) (paths : List String) :
    loadCatalogs read filters paths =
      (loadCatalogs read { package := filters.package } paths).filter fun c =>
        filters.source.all (· = c.location.source) := by
  have hpaths : paths.filter (fun _ => true) = paths := by simp
  rw [← loadCatalogs_filter (fun _ => true) (fun l => filters.source.all (· = l.source)), hpaths]
  intro path
  apply Option.ext
  intro l
  simp only [if_true, Option.filter_eq_some_iff, location?_eq_some, Filters.accepts,
    Bool.and_eq_true, Option.all_none, and_true, and_assoc]

theorem Index.Selects.entry_eq {p : Location → Bool} {whole part : Index} (h : whole.Selects p part)
    (hwhole : whole.Ordered) (locale : String) (key : Key) :
    part.entry? locale key =
      if p ⟨locale, key.package, key.source⟩ then whole.entry? locale key else none := by
  unfold Index.entry?
  rw [h.entries, SortedMap.get?_restrict hwhole.entries]
  rfl

/-- Locales and a source that are asked for restrict an index: what is left of the entries, forms,
files and faults is as without them. So a text does not depend on the other locales. -/
theorem indexOf_filters (filters : Filters) (fallbacks paths : List String) (t : FileTree)
    (hpackages : ∀ path ∈ paths, ∀ l ∈ Location.ofPath? path filters.package,
      ':' ∉ l.package.toList) :
    (indexOf { package := filters.package } fallbacks paths t).Selects
        (fun l => filters.source.all (· = l.source) && filters.acceptsLocale l.locale)
        (indexOf filters fallbacks paths t) ∧
      ∀ locales locale key, filters.acceptsLocale locale = true →
        ({ filters with locales } : Filters).acceptsLocale locale = true →
        Index.entry? (indexOf { filters with locales } fallbacks paths t) locale key =
          Index.entry? (indexOf filters fallbacks paths t) locale key := by
  have hselects (filters' : Filters) (hpackage : filters'.package = filters.package) :
      (indexOf { package := filters.package } fallbacks paths t).Selects
        (fun l => filters'.source.all (· = l.source) && filters'.acceptsLocale l.locale)
        (indexOf filters' fallbacks paths t) := by
    unfold indexOf
    rw [loadCatalogs_source filters' paths, hpackage]
    refine Index.Selects.trans (selects_names rfl ?_) (selects_locales ?_)
    · -- catalogs of one name have one source
      intro c hc c' hc' hname
      obtain ⟨hpath, hl, -⟩ := mem_loadCatalogs.1 hc
      obtain ⟨hpath', hl', -⟩ := mem_loadCatalogs.1 hc'
      have hcolon := hpackages _ hpath _ (location?_eq_some.1 hl).2.1
      have hcolon' := hpackages _ hpath' _ (location?_eq_some.1 hl').2.1
      rw [(catalogName_inj hcolon hcolon' hname).2]
    · intro locale _
      rfl
  refine ⟨hselects filters rfl, ?_⟩
  intro locales locale key haccepts haccepts'
  rw [(hselects filters rfl).entry_eq buildIndex_ordered,
    (hselects { filters with locales } rfl).entry_eq buildIndex_ordered]
  simp only [haccepts, haccepts', Bool.and_true]

/-! ### A file in each of several packages -/

/-- A file with the directories that lead to it, as far as they are new. -/
structure NewFile where
  /-- The directory in which the new ones are. -/
  known : List String := []
  names : List String
  text : String

namespace NewFile

def path (f : NewFile) : String := "/" ++ "/".intercalate (f.known ++ f.names)

def nodes (f : NewFile) : List (List String × FileNode) :=
  let nodeAt (n : Nat) : FileNode := if n < f.names.length then .directory else .text f.text
  (List.range f.names.length).map fun n => (f.known ++ f.names.take (n + 1), nodeAt (n + 1))

end NewFile

def treeOfFiles (files : List NewFile) : FileTree := ⟨⟨files.flatMap NewFile.nodes⟩⟩

def inTranslations (locale file : String) : List String :=
  ["Resources", "Private", "Translations", locale, file]

/-- A catalog with one unit. -/
def unitText (id texts : String) : String :=
  "<x><file><body><trans-unit id='" ++ id ++ "'>" ++ texts ++ "</trans-unit></body></file></x>"

/-- Two files at one location and one of a region. -/
def regionFiles : List NewFile := [
  ⟨[], "DistributionPackages" :: "A" :: inTranslations "de" "Main.xlf", unitText "a" ""⟩,
  ⟨[], "Packages" :: "Application" :: "A" :: inTranslations "de_CH" "Main.xlf", unitText "b" ""⟩,
  ⟨["Packages"], "Sites" :: "A" :: inTranslations "de" "Main.xlf", unitText "a" "<source/>"⟩]

def regionPaths : List String := regionFiles.map NewFile.path

def regionTree : FileTree := treeOfFiles regionFiles

theorem indexOf_filters_region :
    let filters : Filters := ⟨["de"], none, some "Main"⟩
    (indexOf filters [] regionPaths regionTree).entries.values.map (·.source) = [some ""] ∧
      (indexOf {} [] regionPaths regionTree).Selects
        (fun l => filters.source.all (· = l.source) && filters.acceptsLocale l.locale)
        (indexOf filters [] regionPaths regionTree) ∧
      ∀ locales locale key, filters.acceptsLocale locale = true →
        ({ filters with locales } : Filters).acceptsLocale locale = true →
        Index.entry? (indexOf { filters with locales } [] regionPaths regionTree) locale key =
          Index.entry? (indexOf filters [] regionPaths regionTree) locale key := by
  intro filters
  -- what the index holds and the packages of its paths are found in one evaluation
  refine And.imp_right (a := ∀ path ∈ regionPaths, ∀ l ∈ Location.ofPath? path none,
    ':' ∉ l.package.toList) ?_ (by decide +kernel)
  exact indexOf_filters filters [] regionPaths regionTree

end Filters

/-! ## Packages -/

section Packages

variable {read : String → Except Error Document} (locales : List String) (source : Option String)
variable (fallbacks paths : List String) (t : FileTree) (name : String)

theorem loadCatalogs_package :
    loadCatalogs read ⟨locales, some name, source⟩ (paths.filter (packageOf? · = some name)) =
      (loadCatalogs read ⟨locales, none, source⟩ paths).filter (·.location.package = name) := by
  refine loadCatalogs_filter _ (fun l => l.package = name) paths fun path => ?_
  apply Option.ext
  intro l
  rw [Option.ite_none_right_eq_some, Option.filter_eq_some_iff, location?_eq_some,
    location?_eq_some, ofPath?_eq_some, ofPath?_eq_some]
  constructor
  · rintro ⟨hname, hfile, ⟨hl, hsource⟩, haccepts⟩
    cases hl
    refine ⟨⟨hfile, ⟨of_decide_eq_true hname, hsource⟩, ?_⟩, by simp⟩
    exact (Bool.and_eq_true_iff.1 haccepts).2
  · rintro ⟨⟨hfile, ⟨hl, hsource⟩, haccepts⟩, hname⟩
    obtain rfl := of_decide_eq_true hname
    exact ⟨by simpa using hl, hfile, ⟨rfl, hsource⟩, Bool.and_eq_true_iff.2 ⟨by simp, haccepts⟩⟩

/-- The catalogs in the directory of a package, indexed as those of that package, are the part of
the whole index that bears its name. -/
theorem selects_package
    (hpackages : ∀ path ∈ paths, ∀ p ∈ packageOf? path, ':' ∉ p.toList) :
    (indexOf ⟨locales, none, source⟩ fallbacks paths t).Selects (·.package = name)
      (indexOf ⟨locales, some name, source⟩ fallbacks
        (paths.filter (packageOf? · = some name)) t) := by
  unfold indexOf
  rw [loadCatalogs_package]
  refine selects_names (p := fun l => l.package = name) rfl ?_
  intro c hc c' hc' heq
  have hcolon {c : LoadedCatalog}
      (hc : c ∈ loadCatalogs (Document.load t) ⟨locales, none, source⟩ paths) :
      ':' ∉ c.location.package.toList := by
    obtain ⟨hpath, hl, -⟩ := mem_loadCatalogs.1 hc
    exact hpackages _ hpath _ (ofPath?_eq_some.1 (location?_eq_some.1 hl).2.1).1
  rw [(catalogName_inj (hcolon hc) (hcolon hc') heq).1]

variable {locales source paths}

/-- A package that is asked for is taken to be the one of every catalog that is given. -/
theorem isSome_file?_override {path : String} {l : Location}
    (h : Listed ⟨locales, none, source⟩ paths path l) :
    (Index.file? (indexOf ⟨locales, some name, source⟩ fallbacks paths t)
      { l with package := name }).isSome = true := by
  obtain ⟨hfile, hl, haccepts⟩ := location?_eq_some.1 h.location
  obtain ⟨hpackage, hsource⟩ := ofPath?_eq_some.1 hl
  have hgiven : Listed ⟨locales, some name, source⟩ paths path { l with package := name } := by
    refine ⟨h.mem, location?_eq_some.2 ⟨hfile, ofPath?_eq_some.2 ⟨rfl, hsource⟩, ?_⟩, h.accepted⟩
    exact Bool.and_eq_true_iff.2 ⟨by simp, (Bool.and_eq_true_iff.1 haccepts).2⟩
  exact hgiven.isSome_file? fallbacks t

end Packages

end TranslationAudit.Catalog
