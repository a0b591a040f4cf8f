import TranslationAudit.Proofs.Catalog.Filter
import TranslationAudit.Proofs.Deletion
import TranslationAudit.Proofs.Message.ReferenceIndex
import TranslationAudit.Proofs.Project.Discovery
import TranslationAudit.Proofs.Project.References

/-! # Runs on one package

A package that is asked for narrows the search to its directory, and it is taken to be the package
of all catalogs that are found there.

* `Project.IsHome`: projects in which the directory of a package is recognised as its directory.
* `Project.searched_below`: a narrowed search finds what is found in that directory.
* `Project.package_selects`: a package that is asked for selects the catalogs that bear its name if
  its directory alone is searched.
* `Project.unused?`, `Project.mem_unused`: what a run reports as unused, unless it stops.
* `Project.unused_of_narrowed`: what is unused in a narrowed run is unused, unless it is used from
  elsewhere.
* `Project.ReportsMore`: runs that report more when they are narrowed.
-/

namespace TranslationAudit

open Catalog (Entry Index Listed indexOf packageOf?)

/-! ## Uses of a key -/

/-- Whether a reference uses a key, itself or as a form of a plural message. -/
def Reference.Uses (r : Reference) (k : Key) : Prop :=
  r.key = k ∨ ∃ base n, splitPluralForm k.id = some (base, n) ∧ r.key = { k with id := base }

theorem isReferenced_ofReferences {rs : List Reference} {k : Key} :
    isReferenced (.ofReferences rs) k = true ↔ ∃ r ∈ rs, r.Uses k := by
  simp only [isReferenced, Bool.or_eq_true, Option.any_eq_true, Prod.exists,
    ReferenceIndex.contains_ofReferences, Reference.Uses]
  constructor
  · rintro (⟨r, hr, hk⟩ | ⟨base, n, hsplit, r, hr, hk⟩)
    · exact ⟨r, hr, .inl hk⟩
    · exact ⟨r, hr, .inr ⟨base, n, hsplit, hk⟩⟩
  · rintro ⟨r, hr, hk | ⟨base, n, hsplit, hk⟩⟩
    · exact .inl ⟨r, hr, hk⟩
    · exact .inr ⟨base, n, hsplit, r, hr, hk⟩

namespace Project

/-! ## Narrowed searches -/

def packageDirectory (base package : String) : String :=
  Path.join (Path.join base packagesDirectory) package

/-- Projects in which the directory of a package is recognised as its directory. -/
structure IsHome (t : FileTree) (base package : String) : Prop where
  name : Path.IsName package
  recognised : packageOf? (packageDirectory base package ++ "/") = some package
  directory : t.isFile (packageDirectory base package) = false

instance (t : FileTree) (base package : String) : Decidable (IsHome t base package) :=
  decidable_of_iff (Path.IsName package ∧
      packageOf? (packageDirectory base package ++ "/") = some package ∧
      t.isFile (packageDirectory base package) = false)
    ⟨fun ⟨hname, hrecognised, hdirectory⟩ => ⟨hname, hrecognised, hdirectory⟩,
      fun h => ⟨h.name, h.recognised, h.directory⟩⟩

section Search

variable {t : FileTree} {base package : String}

theorem isName_packagesDirectory : Path.IsName packagesDirectory := by
  constructor <;> decide

/-- A narrowed search finds what is found in the directory of the package. -/
theorem searched_below (h : t.Proper) (hhome : IsHome t base package)
    (includes excludes : List String) (accept : String → Bool) :
    scanFiles t base (discoveryRoots base [] (some package)) includes excludes accept =
      (scanFiles t base (discoveryRoots base [] none) includes excludes accept).filter
        (Path.isBelow (packageDirectory base package)) :=
  scanFiles_below h (isName_packagesDirectory.isOpen_join base) hhome.name hhome.directory
    base includes excludes accept

theorem packageOf?_of_searched (h : t.Proper) (hhome : IsHome t base package)
    {includes excludes : List String} {accept : String → Bool} {path : String}
    (hpath : path ∈ scanFiles t base (discoveryRoots base [] (some package)) includes excludes
      accept) : packageOf? path = some package := by
  rw [searched_below h hhome, List.mem_filter] at hpath
  exact Catalog.packageOf?_of_isBelow hhome.recognised hpath.2

/-- A package that is asked for is taken to be the package of every catalog that is given, so it
selects the catalogs that bear its name just where no other ones are given. Without discovery paths
none are. -/
theorem package_selects (locales : List String) (source : Option String)
    (fallbacks : List String) (t : FileTree) (package : String) :
    (∀ paths, (∀ path ∈ paths, ∀ p ∈ packageOf? path, ':' ∉ p.toList) →
      (indexOf ⟨locales, none, source⟩ fallbacks paths t).Selects (·.package = package)
        (indexOf ⟨locales, some package, source⟩ fallbacks
          (paths.filter (packageOf? · = some package)) t)) ∧
    (∀ paths path l, Listed ⟨locales, none, source⟩ paths path l →
      (Index.file? (indexOf ⟨locales, some package, source⟩ fallbacks paths t)
        { l with package }).isSome = true) ∧
    ∀ base includes excludes, t.Proper → IsHome t base package →
      ∀ path ∈ scanFiles t base (discoveryRoots base [] (some package)) includes excludes
        Catalog.isCatalogFile, packageOf? path = some package := by
  refine ⟨?_, ?_, ?_⟩
  · intro paths hpackages
    exact Catalog.selects_package locales source fallbacks paths t package hpackages
  · intro paths path l hlisted
    exact Catalog.isSome_file?_override fallbacks t package hlisted
  · intro base includes excludes hproper hhome path hpath
    exact packageOf?_of_searched hproper hhome hpath

/-- A catalog of a package of its own. -/
def packageFile (package file id texts : String) : Catalog.NewFile :=
  ⟨["DistributionPackages"], package :: Catalog.inTranslations "de" file,
    Catalog.unitText id texts⟩

def packageTree (files : List Catalog.NewFile) : FileTree :=
  ⟨⟨(["DistributionPackages"], .directory) :: files.flatMap Catalog.NewFile.nodes⟩⟩

/-- The entries of files of which some are given and a package is asked for. -/
def entriesOf (files : List Catalog.NewFile) (package : Option String) (given : String → Bool) :
    SortedMap Catalog.LocalKey Entry :=
  (indexOf ⟨[], package, none⟩ [] ((files.map Catalog.NewFile.path).filter given)
    (packageTree files)).entries

def otherPackage : Catalog.NewFile := packageFile "B" "Other.xlf" "b" ""

/-- Catalogs of two packages that have one name. -/
def twoColons : List Catalog.NewFile :=
  [packageFile "A" "b:c.xlf" "a" "", packageFile "A:b" "c.xlf" "a" "<source/>"]

/-- A catalog of another package that is given is indexed as one of the package that is asked for,
and a catalog of the same name gives its text away even if it is not given. -/
theorem package_renames :
    (packageOf? otherPackage.path = some "B" ∧
      entriesOf [otherPackage] (some "A") (fun _ => true) ≠
        (entriesOf [otherPackage] none fun _ => true).restrict (·.key.package = "A")) ∧
    (twoColons.map (fun file => packageOf? file.path) = [some "A", some "A:b"] ∧
      entriesOf twoColons (some "A") (packageOf? · = some "A") ≠
        (entriesOf twoColons none fun _ => true).restrict (·.key.package = "A")) := by
  decide +kernel

def twoPackages : List Catalog.NewFile := [packageFile "A" "Main.xlf" "a" "", otherPackage]

def twoPaths : List String := twoPackages.map Catalog.NewFile.path

def twoTree : FileTree := packageTree twoPackages

theorem package_selects_two :
    (indexOf ⟨[], none, none⟩ [] twoPaths twoTree).Selects (·.package = "A")
        (indexOf ⟨[], some "A", none⟩ [] (twoPaths.filter (packageOf? · = some "A")) twoTree) ∧
      (Index.file? (indexOf ⟨[], some "A", none⟩ [] twoPaths twoTree)
        { (⟨"de", "B", "Other"⟩ : Catalog.Location) with package := "A" }).isSome = true ∧
      (twoTree.Proper ∧ IsHome twoTree "/" "A") ∧
      ∀ path ∈ scanFiles twoTree "/" (discoveryRoots "/" [] (some "A")) [] []
        Catalog.isCatalogFile, packageOf? path = some "A" := by
  have hpackages : ∀ path ∈ twoPaths, ∀ p ∈ packageOf? path, ':' ∉ p.toList := by decide
  have hlisted : Listed ⟨[], none, none⟩ twoPaths otherPackage.path ⟨"de", "B", "Other"⟩ :=
    ⟨List.mem_of_mem_tail List.mem_cons_self, by decide, rfl⟩
  have hproper : twoTree.Proper := by decide
  have hhome : IsHome twoTree "/" "A" := by decide
  obtain ⟨hselects, hoverride, hsearched⟩ := package_selects [] none [] twoTree "A"
  have hsome := hoverride twoPaths _ _ hlisted
  have hpart := hselects twoPaths hpackages
  exact ⟨hpart, hsome, ⟨hproper, hhome⟩, hsearched "/" [] [] hproper hhome⟩

end Search

/-! ## Narrowed projects -/

/-- A project and the one of the same options with a package that is asked for. -/
structure IsNarrowed (package : String) (whole narrowed : Project) : Prop where
  base : narrowed.base = whole.base
  fallbacks : narrowed.config.fallbackLocales = whole.config.fallbackLocales
  filters : narrowed.filters = { whole.filters with package := some package }
  sourceFiles : narrowed.sourceFiles =
    whole.sourceFiles.filter (Path.isBelow (packageDirectory whole.base package))
  catalogFiles : narrowed.catalogFiles =
    whole.catalogFiles.filter (Path.isBelow (packageDirectory whole.base package))

section Runs

variable {env : Environment} {o : Options} {package : String} {whole narrowed : Project}

theorem isNarrowed_ofOptions (hwhole : ofOptions env { o with package := none } = .ok whole)
    (hnarrowed : ofOptions env { o with package := some package } = .ok narrowed)
    (hpackage : whole.filters.package = none) (hpaths : whole.config.paths = [])
    (hproper : env.tree.Proper) (hhome : IsHome env.tree whole.base package) :
    IsNarrowed package whole narrowed := by
  unfold ofOptions at hwhole hnarrowed
  dsimp only at hwhole hnarrowed
  cases hload : loadConfig env.tree
      ((o.root.map (Path.join env.workingDirectory)).getD env.workingDirectory) with
  | error e =>
    rw [hload] at hwhole
    cases hwhole
  | ok loaded =>
    rw [hload] at hwhole hnarrowed
    cases hwhole
    cases hnarrowed
    dsimp only at hpackage hpaths hhome ⊢
    have hpaths' : (overrideConfig { o with package := some package } loaded.1).paths = [] := hpaths
    refine ⟨rfl, rfl, rfl, ?_, ?_⟩
    · dsimp only
      rw [hpackage, hpaths, hpaths']
      exact searched_below hproper hhome _ _ _
    · dsimp only
      rw [hpackage, hpaths, hpaths']
      exact searched_below hproper hhome _ _ _

end Runs

/-! ## Unused entries -/

/-- The entries that a sweep reports, unless it stops. -/
def unused? (p : Project) (t : FileTree) : Option (List Entry) :=
  (p.references? t).map fun references => unusedEntries references (p.catalogs t)
    ⟨p.filters.locales, p.filters.package, p.filters.source, []⟩

/-- What a sweep reports that does not delete. -/
theorem result_runUnused {env : Environment} {o : UnusedOptions} {p : Project}
    (hp : ofOptions env o.common = .ok p) (hdelete : o.delete = false) :
    (p.unused? env.tree = none → (Command.runUnused env o).result = .error .stopped) ∧
      ∀ found, p.unused? env.tree = some found →
        ∃ references, p.references? env.tree = some references ∧ (Command.runUnused env o).result =
          .ok (Command.report p
            (.unused (Command.runScope p o.dryRun) references.duplicateCount none)
            (Command.catalogIssues p (p.catalogs env.tree) ++
              Command.duplicateIssues p references ++ found.map (Issue.ofUnused p.base))
            (Command.unusedCode p o (p.catalogs env.tree) found false)) := by
  have hscope : p.scope [] = .ok ⟨p.filters.locales, p.filters.package, p.filters.source, []⟩ := rfl
  have hrun : Command.runUnused env o = Command.sweepProject env o p
      ⟨p.filters.locales, p.filters.package, p.filters.source, []⟩ := by
    simp only [Command.runUnused, hp, hscope]
  rw [hrun, unused?]
  unfold Command.sweepProject
  cases p.references? env.tree with
  | none => exact ⟨fun _ => rfl, nofun⟩
  | some references =>
    refine ⟨nofun, ?_⟩
    rintro found ⟨⟩
    refine ⟨references, rfl, ?_⟩
    rw [hdelete]
    rfl

section Unused

variable {t : FileTree} {package : String} {whole narrowed : Project} {e : Entry}

theorem mem_unused {p : Project} {found : List Entry} (hfound : p.unused? t = some found) :
    e ∈ found ↔ Index.entry? (p.catalogs t) e.locale e.key = some e ∧
      p.filters.acceptsLocale e.locale = true ∧
      p.filters.accepts e.key.package e.key.source = true ∧
      ∀ file ∈ p.sourceFiles, ∀ r, Finds t file r → ¬r.Uses e.key := by
  have hcoherent : (p.catalogs t).Coherent := Catalog.coherent_indexOf
  obtain ⟨references, hreferences, rfl⟩ := Option.map_eq_some_iff.1 hfound
  obtain ⟨rs, rfl, hrs⟩ := exists_of_references? hreferences
  rw [unusedEntries, List.mem_filter, hcoherent.mem_values]
  have hreferenced : isReferenced (.ofReferences rs) e.key = false ↔
      ∀ file ∈ p.sourceFiles, ∀ r, Finds t file r → ¬r.Uses e.key := by
    rw [Bool.eq_false_iff, ne_eq, isReferenced_ofReferences]
    constructor
    · intro h file hfile r hr huses
      exact h ⟨r, (hrs r).2 ⟨file, hfile, hr⟩, huses⟩
    · rintro h ⟨r, hr, huses⟩
      obtain ⟨file, hfile, hr⟩ := (hrs r).1 hr
      exact h file hfile r hr huses
  rw [← hreferenced]
  simp only [Scope.acceptsLocale, Scope.accepts, Catalog.Filters.acceptsLocale,
    Catalog.Filters.accepts, List.isEmpty_nil, Bool.true_or, Bool.and_true, Bool.and_eq_true,
    Bool.not_eq_true', and_assoc]

/-- The catalogs of a narrowed project are catalogs of the whole one, at the same locations. -/
theorem IsNarrowed.listed (h : IsNarrowed package whole narrowed)
    (hpackage : whole.filters.package = none) (hhome : IsHome t whole.base package)
    {path : String} {l : Catalog.Location}
    (hl : Listed narrowed.filters narrowed.catalogFiles path l) :
    l.package = package ∧ Listed whole.filters whole.catalogFiles path l := by
  obtain ⟨hmem, hlocation, haccepted⟩ := hl
  rw [h.catalogFiles, List.mem_filter] at hmem
  obtain ⟨hmem, hbelow⟩ := hmem
  rw [h.filters] at hlocation haccepted
  obtain ⟨hfile, hl, haccepts⟩ := Catalog.location?_eq_some.1 hlocation
  obtain ⟨hname, hsource⟩ := Catalog.ofPath?_eq_some.1 hl
  have hname : package = l.package := Option.some.inj hname
  have hfound := Catalog.packageOf?_of_isBelow hhome.recognised hbelow
  refine ⟨hname.symm, hmem, Catalog.location?_eq_some.2 ⟨hfile, ?_, ?_⟩, haccepted⟩
  · refine Catalog.ofPath?_eq_some.2 ⟨?_, hsource⟩
    rw [hpackage, Option.none_or, hfound, hname]
  · rw [Catalog.Filters.accepts, hpackage]
    exact Bool.and_eq_true_iff.2 ⟨rfl, (Bool.and_eq_true_iff.1 haccepts).2⟩

/-- The index of a narrowed project is the part of the whole index that bears the name of the
package, if no other directory bears it. -/
theorem IsNarrowed.selects (h : IsNarrowed package whole narrowed)
    (hpackage : whole.filters.package = none) (hhome : IsHome t whole.base package)
    (honly : ∀ path ∈ whole.catalogFiles, packageOf? path = some package →
      Path.isBelow (packageDirectory whole.base package) path = true)
    (hnames : ∀ path ∈ whole.catalogFiles, ∀ p ∈ packageOf? path, ':' ∉ p.toList) :
    (whole.catalogs t).Selects (·.package = package) (narrowed.catalogs t) := by
  have hfiles : narrowed.catalogFiles =
      whole.catalogFiles.filter (packageOf? · = some package) := by
    rw [h.catalogFiles]
    apply List.filter_congr
    intro path hpath
    rw [Bool.eq_iff_iff, decide_eq_true_iff]
    exact ⟨Catalog.packageOf?_of_isBelow hhome.recognised, honly path hpath⟩
  have hselects := Catalog.selects_package whole.filters.locales whole.filters.source
    whole.config.fallbackLocales whole.catalogFiles t package hnames
  have hwhole : whole.filters = ⟨whole.filters.locales, none, whole.filters.source⟩ := by
    rw [← hpackage]
  have hnarrowed : narrowed.filters =
      ⟨whole.filters.locales, some package, whole.filters.source⟩ := h.filters
  rw [← hwhole, ← hnarrowed, ← hfiles, ← h.fallbacks] at hselects
  unfold catalogs
  rw [h.fallbacks] at hselects ⊢
  exact hselects

/-- What a narrowed project has a text of the whole one has a text of. -/
theorem IsNarrowed.exists_entry (h : IsNarrowed package whole narrowed)
    (hpackage : whole.filters.package = none) (hhome : IsHome t whole.base package)
    {locale : String} {key : Key} (he : Index.entry? (narrowed.catalogs t) locale key = some e) :
    key.package = package ∧ ∃ e', Index.entry? (whole.catalogs t) locale key = some e' := by
  obtain ⟨hkey, hlisted, d, hload, hunit⟩ := Catalog.indexOf_entry? he
  cases hkey
  obtain ⟨hname, hlisted⟩ := h.listed hpackage hhome hlisted
  exact ⟨hname, Option.ne_none_iff_exists'.1
    (Catalog.indexOf_entry_ne_none whole.config.fallbackLocales hlisted hload hunit)⟩

theorem IsNarrowed.mem_sourceFiles (h : IsNarrowed package whole narrowed) {file : String}
    (hfile : file ∈ whole.sourceFiles)
    (hbelow : Path.isBelow (packageDirectory whole.base package) file = true) :
    file ∈ narrowed.sourceFiles := by
  rw [h.sourceFiles]
  exact List.mem_filter.2 ⟨hfile, hbelow⟩

/-- A run on all packages does not stop in the package if the narrowed one does not. -/
theorem IsNarrowed.legible (h : IsNarrowed package whole narrowed)
    (hinside : ∀ file ∈ narrowed.sourceFiles, Legible t file)
    (houtside : ∀ file ∈ whole.sourceFiles,
      Path.isBelow (packageDirectory whole.base package) file = false → Legible t file) :
    ∀ file ∈ whole.sourceFiles, Legible t file := by
  intro file hfile
  cases hbelow : Path.isBelow (packageDirectory whole.base package) file with
  | false => exact houtside file hfile hbelow
  | true => exact hinside file (h.mem_sourceFiles hfile hbelow)

/-- What nothing in the package uses nothing uses, unless it is used from elsewhere. -/
theorem IsNarrowed.not_uses (h : IsNarrowed package whole narrowed) {k : Key}
    (hinside : ∀ file ∈ narrowed.sourceFiles, ∀ r, Finds t file r → ¬r.Uses k)
    (helsewhere : ¬∃ file ∈ whole.sourceFiles,
      Path.isBelow (packageDirectory whole.base package) file = false ∧
        ∃ r, Finds t file r ∧ r.Uses k) :
    ∀ file ∈ whole.sourceFiles, ∀ r, Finds t file r → ¬r.Uses k := by
  intro file hfile r hr huses
  cases hbelow : Path.isBelow (packageDirectory whole.base package) file with
  | false => exact helsewhere ⟨file, hfile, hbelow, r, hr, huses⟩
  | true => exact hinside file (h.mem_sourceFiles hfile hbelow) r hr huses

end Unused

/-- What is unused in a run on one package is unused in a run on all packages, unless a reference
uses it that stands outside the directory of the package, where the former does not look. The files
there have to be legible, as the latter stops at others. -/
theorem unused_of_narrowed {env : Environment} {o : Options} {package : String}
    {whole narrowed : Project}
    (hwhole : ofOptions env { o with package := none } = .ok whole)
    (hnarrowed : ofOptions env { o with package := some package } = .ok narrowed)
    (hpackage : whole.filters.package = none) (hpaths : whole.config.paths = [])
    (hproper : env.tree.Proper) (hhome : IsHome env.tree whole.base package)
    (hlegible : ∀ file ∈ whole.sourceFiles,
      Path.isBelow (packageDirectory whole.base package) file = false → Legible env.tree file)
    {found : List Entry} (hfound : narrowed.unused? env.tree = some found)
    {e : Entry} (he : e ∈ found) :
    ∃ all, whole.unused? env.tree = some all ∧
      ((∃ e' ∈ all, e'.localKey = e.localKey ∧
        ((∀ path ∈ whole.catalogFiles, packageOf? path = some package →
            Path.isBelow (packageDirectory whole.base package) path = true) →
          (∀ path ∈ whole.catalogFiles, ∀ p ∈ packageOf? path, ':' ∉ p.toList) → e' = e)) ∨
      ∃ file ∈ whole.sourceFiles,
        Path.isBelow (packageDirectory whole.base package) file = false ∧
          ∃ r, Finds env.tree file r ∧ r.Uses e.key) := by
  have h := isNarrowed_ofOptions hwhole hnarrowed hpackage hpaths hproper hhome
  obtain ⟨hentry, hlocale, haccepts, hunused⟩ := (mem_unused hfound).1 he
  have hall : (whole.unused? env.tree).isSome = true := by
    rw [unused?, Option.isSome_map, isSome_references?_iff]
    refine h.legible ?_ hlegible
    rw [← isSome_references?_iff, ← Option.isSome_map]
    exact Option.isSome_of_eq_some hfound
  obtain ⟨all, hall⟩ := Option.isSome_iff_exists.1 hall
  refine ⟨all, hall, ?_⟩
  by_cases helsewhere : ∃ file ∈ whole.sourceFiles,
      Path.isBelow (packageDirectory whole.base package) file = false ∧
        ∃ r, Finds env.tree file r ∧ r.Uses e.key
  · exact .inr helsewhere
  · left
    obtain ⟨hname, e', he'⟩ := h.exists_entry hpackage hhome hentry
    obtain ⟨hkey, -⟩ := Catalog.indexOf_entry? he'
    have hlocale' : e'.locale = e.locale := congrArg Catalog.LocalKey.locale hkey
    have hkey' : e'.key = e.key := congrArg Catalog.LocalKey.key hkey
    rw [h.filters] at hlocale haccepts
    refine ⟨e', (mem_unused hall).2 ⟨?_, ?_, ?_, ?_⟩, hkey, ?_⟩
    · rw [hlocale', hkey']
      exact he'
    · rw [hlocale']
      exact hlocale
    · rw [hkey', Catalog.Filters.accepts, hpackage]
      exact Bool.and_eq_true_iff.2 ⟨rfl, (Bool.and_eq_true_iff.1 haccepts).2⟩
    · rw [hkey']
      exact h.not_uses hunused helsewhere
    · intro honly hnames
      have hselects := h.selects hpackage hhome honly hnames
      rw [hselects.entry_eq Catalog.buildIndex_ordered, if_pos (by simpa using hname)] at hentry
      exact Option.some.inj (he'.symm.trans hentry)

/-! ## Runs that report more when they are narrowed -/

/-- A project of which the options and the configuration say nothing but a package. -/
def plainProject (base : String) (package : Option String)
    (sourceFiles catalogFiles : List String) : Project :=
  ⟨{}, base, ⟨[], package, none⟩, [], sourceFiles, catalogFiles⟩

section Plain

variable {env : Environment} {package : Option String}

theorem ofOptions_plain (hconfig : findConfig env.tree env.workingDirectory = none) :
    ofOptions env { package } = .ok (plainProject env.workingDirectory package
      (scanFiles env.tree env.workingDirectory (discoveryRoots env.workingDirectory [] package)
        ({} : Config).includes ({} : Config).excludes fun p => (sourceFormat? p).isSome)
      (scanFiles env.tree env.workingDirectory (discoveryRoots env.workingDirectory [] package)
        [] ({} : Config).excludes Catalog.isCatalogFile)) := by
  have hload : loadConfig env.tree env.workingDirectory = .ok ({}, none) := by
    rw [loadConfig, hconfig]
  unfold ofOptions
  change (loadConfig env.tree env.workingDirectory).map _ = _
  rw [hload]
  cases package <;> rfl

theorem ofOptions_of_length (hproper : env.tree.Proper)
    (hconfig : findConfig env.tree env.workingDirectory = none) {root : String}
    (hroots : discoveryRoots env.workingDirectory [] package = [root]) (hroot : Path.IsOpen root)
    {sourceFiles catalogFiles : List String}
    (hsources : (env.tree.walk root).filter (fun p => (sourceFormat? p).isSome &&
      isSelected env.workingDirectory (Glob.valid ({} : Config).includes)
        (Glob.valid ({} : Config).excludes) p) = sourceFiles)
    (hcatalogs : (env.tree.walk root).filter (fun p => Catalog.isCatalogFile p &&
      isSelected env.workingDirectory (Glob.valid [])
        (Glob.valid ({} : Config).excludes) p) = catalogFiles)
    (hlength : sourceFiles.length ≤ 1) (hlength' : catalogFiles.length ≤ 1) :
    ofOptions env { package } =
      .ok (plainProject env.workingDirectory package sourceFiles catalogFiles) := by
  rw [ofOptions_plain hconfig, hroots, scanFiles_of_length hproper hroot hsources hlength,
    scanFiles_of_length hproper hroot hcatalogs hlength']

end Plain

/-- Whether a run on a package reports what a run on all packages does not. -/
def ReportsMore (env : Environment) (package : String) : Prop :=
  ∃ whole narrowed, ofOptions env {} = .ok whole ∧
    ofOptions env { package := some package } = .ok narrowed ∧ whole.config.paths = [] ∧
    whole.filters.package = none ∧
    ∃ found ∈ narrowed.unused? env.tree, ∃ all ∈ whole.unused? env.tree,
      ∃ e ∈ found, ∀ e' ∈ all, e'.localKey ≠ e.localKey

/-! ### A message of one package that is used in another -/

def sharedFiles : List Catalog.NewFile := [
  ⟨["DistributionPackages"], "A" :: Catalog.inTranslations "de" "Main.xlf",
    "<x><file><body><trans-unit id='a'/><trans-unit id='b'/></body></file></x>"⟩,
  ⟨["DistributionPackages"], ["B", "C.php"],
    "<?php\n$x = I18n::translate('a', 'F', [], 'Main', 'A');\n"⟩]

def messagesFile : String := "/DistributionPackages/A/Resources/Private/Translations/de/Main.xlf"

def callFile : String := "/DistributionPackages/B/C.php"

/-- Of the two messages of a package the first is used, but in another package. -/
def sharing : Environment := ⟨packageTree sharedFiles, "/", "", .wraps⟩

/-- The project of a run there, with a package that is asked for. -/
def sharingProject (package : Option String) (sourceFiles : List String) : Project :=
  plainProject "/" package sourceFiles [messagesFile]

theorem proper_sharing : sharing.tree.Proper := by decide

theorem findConfig_sharing : findConfig sharing.tree "/" = none := by decide

theorem ofOptions_sharing_all :
    ofOptions sharing {} = .ok (sharingProject none [callFile]) :=
  ofOptions_of_length proper_sharing findConfig_sharing rfl ⟨'s', by decide, by decide⟩
    (by decide +kernel) (by decide +kernel) (by decide) (by decide)

theorem ofOptions_sharing_one :
    ofOptions sharing { package := some "A" } = .ok (sharingProject (some "A") []) :=
  ofOptions_of_length proper_sharing findConfig_sharing rfl ⟨'A', by decide, by decide⟩
    (by decide) (by decide +kernel) (by decide) (by decide)

/-! ### A project in a package of another one -/

def nestedFiles : List Catalog.NewFile := [
  ⟨[], "DistributionPackages" :: "X" :: "DistributionPackages" :: "A" ::
    Catalog.inTranslations "de" "Main.xlf", Catalog.unitText "a" ""⟩]

def nestedFile : String :=
  "/DistributionPackages/X/DistributionPackages/A/Resources/Private/Translations/de/Main.xlf"

def nested : Environment :=
  ⟨Catalog.treeOfFiles nestedFiles, "/DistributionPackages/X", "", .wraps⟩

theorem proper_nested : nested.tree.Proper := by decide

theorem findConfig_nested : findConfig nested.tree "/DistributionPackages/X" = none := by
  decide

theorem ofOptions_nested_all :
    ofOptions nested {} = .ok (plainProject "/DistributionPackages/X" none [] [nestedFile]) :=
  ofOptions_of_length proper_nested findConfig_nested rfl ⟨'s', by decide, by decide⟩
    (by decide) (by decide +kernel) (by decide) (by decide)

theorem ofOptions_nested_one : ofOptions nested { package := some "A" } =
    .ok (plainProject "/DistributionPackages/X" (some "A") [] [nestedFile]) :=
  ofOptions_of_length proper_nested findConfig_nested rfl ⟨'A', by decide, by decide⟩
    (by decide) (by decide +kernel) (by decide) (by decide)

/-- The first message is unused in a run on its package only. In a project that lies in a package
what is unused has the name of that package unless another one is asked for. -/
theorem reportsMore_of_narrowed :
    (ReportsMore sharing "A" ∧ IsHome sharing.tree sharing.workingDirectory "A") ∧
      (ReportsMore nested "A" ∧ ∀ p, ofOptions nested {} = .ok p → p.sourceFiles = []) := by
  refine ⟨⟨⟨_, _, ofOptions_sharing_all, ofOptions_sharing_one, rfl, rfl, by decide +kernel⟩,
    by decide⟩, ⟨_, _, ofOptions_nested_all, ofOptions_nested_one, rfl, rfl,
    by decide +kernel⟩, ?_⟩
  intro p hp
  rw [ofOptions_nested_all] at hp
  cases hp
  rfl

/-! ### A message that no package uses -/

def secondEntry : Entry := ⟨"de", ⟨"A", "Main", "b"⟩, messagesFile, none, none, none⟩

/-- The second message is unused in both runs. -/
theorem unused_of_narrowed_second :
    ∃ found, (sharingProject (some "A") []).unused? sharing.tree = some found ∧
      secondEntry ∈ found ∧
      ∃ all, (sharingProject none [callFile]).unused? sharing.tree = some all ∧
        ((∃ e' ∈ all, e'.localKey = secondEntry.localKey ∧
          ((∀ path ∈ (sharingProject none [callFile]).catalogFiles, packageOf? path = some "A" →
              Path.isBelow (packageDirectory (sharingProject none [callFile]).base "A") path =
                true) →
            (∀ path ∈ (sharingProject none [callFile]).catalogFiles, ∀ p ∈ packageOf? path,
              ':' ∉ p.toList) → e' = secondEntry)) ∨
        ∃ file ∈ (sharingProject none [callFile]).sourceFiles,
          Path.isBelow (packageDirectory (sharingProject none [callFile]).base "A") file = false ∧
            ∃ r, Finds sharing.tree file r ∧ r.Uses secondEntry.key) := by
  have hreported : ∃ found ∈ (sharingProject (some "A") []).unused? sharing.tree,
      secondEntry ∈ found := by decide +kernel
  obtain ⟨found, hfound, he⟩ := hreported
  have hhome : IsHome sharing.tree (sharingProject none [callFile]).base "A" := by decide
  have hlegible : ∀ file ∈ (sharingProject none [callFile]).sourceFiles,
      Path.isBelow (packageDirectory (sharingProject none [callFile]).base "A") file = false →
        Legible sharing.tree file := by
    intro file hfile _ hyaml
    obtain rfl := List.mem_singleton.1 hfile
    exact absurd hyaml (by decide)
  exact ⟨found, hfound, he, unused_of_narrowed (o := {}) ofOptions_sharing_all
    ofOptions_sharing_one rfl rfl proper_sharing hhome hlegible hfound he⟩

end Project

end TranslationAudit
