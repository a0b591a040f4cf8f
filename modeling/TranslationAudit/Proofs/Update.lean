import TranslationAudit.Command.Scan
import TranslationAudit.Proofs.Catalog.Insert
import TranslationAudit.Proofs.Reconcile

/-! # Adding what is missing

* `Catalog.CatalogsGrow`: a change of files after which catalogs have at least what they had.
* `Catalog.writeTo_grows`, `Catalog.writeTo_supplies`: what additions to one catalog do.
* `Update`: a run that adds what is missing, as in `Update.ofScan`; `Update.grows` and
  `Update.supplies` tell what all of its additions do.
* `Update.plain_converges`, `Update.plural_converges`: a comparison with the files that were
  written finds that nothing is missing of a message.
-/

namespace TranslationAudit

namespace Catalog

/-! ## Additions to one catalog -/

/-- Whether what repeats an identifier keeps its place in the text. -/
def Document.InPlace (layout : Layout) (d : Document) : Prop :=
  ∀ id, d.Repeats id → layout.orderById = false

/-- All catalogs in files are still there, with at least their units and forms. -/
def CatalogsGrow (layout : Layout) (t t' : FileTree) : Prop :=
  ∀ path d, Holds t path d → d.InPlace layout →
    ∃ d', Holds t' path d' ∧ d'.InPlace layout ∧ d.Grows d'

theorem CatalogsGrow.refl (layout : Layout) (t : FileTree) : CatalogsGrow layout t t :=
  fun _ d h hplace => ⟨d, h, hplace, .refl d⟩

theorem CatalogsGrow.trans {layout : Layout} {t t' t'' : FileTree} (h : CatalogsGrow layout t t')
    (h' : CatalogsGrow layout t' t'') : CatalogsGrow layout t t'' := by
  intro path d hd hplace
  obtain ⟨d', hd', hplace', hgrows⟩ := h path d hd hplace
  obtain ⟨d'', hd'', hplace'', hgrows'⟩ := h' path d' hd' hplace'
  exact ⟨d'', hd'', hplace'', hgrows.trans hgrows'⟩

section WriteTo

variable {settings : WriterSettings} {o : WriteOutcome} {path other : String} {l : Location}
variable {additions : List Addition} {d : Document} {t t' : FileTree}

theorem Holds.insertAll_of_render {header : Header} {writesTarget : Bool} (h : Holds t path d)
    (hplace : d.InPlace settings.layout)
    (hread : t'.read other = .ok (render settings.layout
      (d.insertAll settings writesTarget additions).1 header)) :
    ∃ d', Holds t' other d' ∧ d'.InPlace settings.layout ∧
      (d.insertAll settings writesTarget additions).1.Grows d' := by
  obtain ⟨hsound, hasRead⟩ := h.sound
  have hextended := Document.extended_insertAll settings writesTarget additions hsound
    h.keyed.distinct
  obtain ⟨d', hd', hsingles, hforms, hrepeats⟩ :=
    h.of_render (hextended.edited hasRead) (hextended.keepsRepeats hasRead hplace) hread
  refine ⟨d', hd', fun id hid => hplace id (hrepeats id hid), ?_, ?_⟩
  · intro id hid
    exact (hsingles id).2 hid
  · intro base n hform
    exact (hforms base n).2 hform

theorem failures_of_writeTo (hdry : settings.dryRun = false)
    (h : (writeTo settings o path l additions).failures = []) : o.failures = [] := by
  rw [writeTo_eq_revise] at h
  exact failures_of_revise hdry h

/-- Additions to one catalog leave all catalogs with at least what they had. -/
theorem writeTo_grows (hdry : settings.dryRun = false)
    (hpath : (∃ old, o.tree.read path = .ok old) ∨ Path.Direct path) :
    CatalogsGrow settings.layout o.tree (writeTo settings o path l additions).tree := by
  rw [writeTo_eq_revise]
  rcases revise_cases hdry with ⟨e, hfail⟩ | ⟨d, hload, ⟨-, hsame⟩ | ⟨hsave, -⟩⟩
  · rw [hfail]
    exact .refl _ _
  · rw [hsame]
    exact .refl _ _
  · intro other e he hplace
    rcases (he.save hpath hsave).2 with he' | ⟨hsame, hread⟩
    · exact ⟨e, he', hplace, .refl e⟩
    · -- both paths lead to the file that was written
      have he' := he.of_place hsame
      obtain rfl := he'.eq_of_load hload
      obtain ⟨d', hd', hplace', hgrows⟩ := he'.insertAll_of_render hplace hread
      exact ⟨d', hd', hplace', (Document.grows_insertAll _ _ _ e).trans hgrows⟩

/-- Additions to a catalog are in it afterwards, or in the way of a unit that was there. -/
theorem writeTo_supplies (hdry : settings.dryRun = false) (h : Holds o.tree path d)
    (hplace : d.InPlace settings.layout)
    (hok : (writeTo settings o path l additions).failures = []) :
    ∃ d', Holds (writeTo settings o path l additions).tree path d' ∧ d'.InPlace settings.layout ∧
      ∀ a ∈ additions, a.key.id ≠ "" → d'.Supplies a.key.id := by
  rw [writeTo_eq_revise] at hok ⊢
  rcases revise_cases hdry with ⟨e, hfail⟩ | ⟨e, hload, hwritten⟩
  · rw [hfail] at hok
    simp [WriteOutcome.fail] at hok
  · obtain rfl := h.eq_of_load hload
    rcases hwritten with ⟨hnot, hsame⟩ | ⟨hsave, -⟩
    · rw [hsame]
      refine ⟨d, h, hplace, ?_⟩
      intro a ha hid
      have hsupplies := Document.supplies_insertAll (d := d) settings
        ((Header.resolve d.metadata l.package l.locale).writesTarget l.locale) additions ha hid
      rw [Document.insertAll_eq_of_not_changed settings _ additions hnot] at hsupplies
      exact hsupplies
    · obtain ⟨text, hread, -⟩ := id h
      have hread' := FileTree.read_save hread hsave
      obtain ⟨d', hd', hplace', hgrows⟩ := h.insertAll_of_render hplace hread'
      refine ⟨d', hd', hplace', ?_⟩
      intro a ha hid
      exact (Document.supplies_insertAll settings _ additions ha hid).grow hgrows

end WriteTo

theorem Document.Grows.unit {d d' : Document} (h : d.Grows d') (hd : d.Keyed) (hd' : d'.Keyed)
    {id : String} (hunit : d.HasUnit id) : d'.HasUnit id := by
  rcases hd.hasUnit_iff.1 hunit with hsingle | ⟨base, n, hform, hid⟩
  · exact hd'.hasUnit_iff.2 (.inl (h.single id hsingle))
  · exact hd'.hasUnit_iff.2 (.inr ⟨base, n, h.form base n hform, hid⟩)

/-! ## Additions to several catalogs -/

/-- Adds units to the catalog at a location, if there is a place for it. -/
def writeGroup (settings : WriterSettings) (base : String) (roots : List String) (index : Index)
    (o : WriteOutcome) (group : Location × List Addition) : WriteOutcome :=
  match additionPath? o.tree base roots index group.1 with
  | none => o
  | some path => writeTo settings o path group.1 group.2

theorem failures_of_writeGroup {settings : WriterSettings} {base : String} {roots : List String}
    {index : Index} {o : WriteOutcome} {group : Location × List Addition}
    (hdry : settings.dryRun = false)
    (h : (writeGroup settings base roots index o group).failures = []) : o.failures = [] := by
  unfold writeGroup at h
  split at h
  · exact h
  · exact failures_of_writeTo hdry h

end Catalog

open Catalog (Addition CatalogsGrow Document Filters Holds Index Listed Location WriteOutcome
  WriterSettings indexOf newPath?)

/-- A run that adds what is missing to the catalogs in files. -/
structure Update where
  references : ReferenceIndex
  scope : Scope
  filters : Filters
  fallbacks : List String
  /-- The files in which catalogs are looked for. -/
  paths : List String
  settings : WriterSettings
  base : String
  /-- The discovery paths, under the first of which new catalogs are made. -/
  roots : List String
  tree : FileTree

namespace Update

def index (u : Update) : Index := indexOf u.filters u.fallbacks u.paths u.tree

def missing (u : Update) : List MissingTranslation :=
  (reconcile u.references u.index u.scope).missing

def additions (u : Update) : List Addition := u.missing.map Addition.ofMissing

def outcome (u : Update) : WriteOutcome :=
  Catalog.writeAdditions u.settings u.base u.roots u.index u.tree u.additions

def groups (u : Update) : List (Location × List Addition) :=
  (Dict.groupBy Addition.location u.additions).entries

def writeGroup (u : Update) (o : WriteOutcome) (group : Location × List Addition) : WriteOutcome :=
  Catalog.writeGroup u.settings u.base u.roots u.index o group

/-- What is missing once the files were written, among which there may be new ones. -/
def missingAfter (u : Update) (paths : List String) : List MissingTranslation :=
  (reconcile u.references (indexOf u.filters u.fallbacks paths u.outcome.tree) u.scope).missing

/-- The run of a scan that adds what is missing for the references it found. -/
def ofScan (env : Project.Environment) (o : ScanOptions) (p : Project) (scope : Scope)
    (references : ReferenceIndex) : Update where
  references
  scope
  filters := p.filters
  fallbacks := p.config.fallbackLocales
  paths := p.catalogFiles
  settings := p.writerSettings o.dryRun (!o.noNeedsReview)
  base := p.base
  roots := p.config.paths
  tree := env.tree

theorem tree_scanProject (env : Project.Environment) {o : ScanOptions}
    (hupdate : o.update = true) (p : Project) (scope : Scope) :
    (Command.scanProject env none o p scope).tree =
      match p.references? env.tree with
      | none => env.tree
      | some references => (ofScan env o p scope references).outcome.tree := by
  unfold Command.scanProject
  cases p.references? env.tree with
  | none => rfl
  | some references =>
    simp only [hupdate, if_true]
    rfl

/-- Runs that write without failures to catalogs that can be read. What repeats an identifier keeps
its place, and new catalogs lie at direct paths. -/
structure Regular (u : Update) : Prop where
  writes : u.settings.dryRun = false
  readable : ∀ path l, Listed u.filters u.paths path l →
    ∃ d, Holds u.tree path d ∧ d.InPlace u.settings.layout
  direct : ∀ m ∈ u.missing, u.index.file? (Addition.ofMissing m).location = none →
    ∀ isDirectory path,
      newPath? isDirectory u.base u.roots (Addition.ofMissing m).location = some path →
        Path.Direct path
  succeeds : u.outcome.failures = []

variable {u : Update}

theorem location_ofMissing (m : MissingTranslation) :
    (Addition.ofMissing m).location = ⟨m.locale, m.key.package, m.key.source⟩ := rfl

theorem outcome_eq (u : Update) : u.outcome = u.groups.foldl u.writeGroup { tree := u.tree } := rfl

theorem mem_groups {group : Location × List Addition} :
    group ∈ u.groups ↔
      group.2 ≠ [] ∧ group.2 = u.additions.filter fun a => a.location = group.1 :=
  Dict.mem_entries_groupBy Addition.location u.additions

section Run

variable (h : u.Regular)
include h

theorem group_grows {o : WriteOutcome} (ho : CatalogsGrow u.settings.layout u.tree o.tree)
    {group : Location × List Addition} (hgroup : group ∈ u.groups) :
    CatalogsGrow u.settings.layout o.tree (u.writeGroup o group).tree := by
  unfold writeGroup Catalog.writeGroup
  cases hpath : Catalog.additionPath? o.tree u.base u.roots u.index group.1 with
  | none => exact .refl _ _
  | some path =>
    refine Catalog.writeTo_grows h.writes ?_
    unfold Catalog.additionPath? at hpath
    cases hfile : u.index.file? group.1 with
    | some file =>
      rw [hfile] at hpath
      cases hpath
      obtain ⟨d, hd, hplace⟩ := h.readable file.path group.1 (Catalog.indexOf_file? hfile)
      obtain ⟨d', ⟨text, hread, -⟩, -⟩ := ho file.path d hd hplace
      exact .inl ⟨text, hread⟩
    | none =>
      rw [hfile] at hpath
      obtain ⟨hne, hfilter⟩ := mem_groups.1 hgroup
      obtain ⟨a, ha⟩ := List.exists_mem_of_ne_nil _ hne
      rw [hfilter, List.mem_filter] at ha
      obtain ⟨m, hm, rfl⟩ := List.mem_map.1 ha.1
      have hlocation := of_decide_eq_true ha.2
      rw [← hlocation] at hfile hpath
      exact .inr (h.direct m hm hfile _ path hpath)

theorem groups_grow {groups : List (Location × List Addition)}
    (hgroups : ∀ group ∈ groups, group ∈ u.groups) {o : WriteOutcome}
    (ho : CatalogsGrow u.settings.layout u.tree o.tree) :
    CatalogsGrow u.settings.layout o.tree (groups.foldl u.writeGroup o).tree := by
  -- each group finds the catalog that the index names, as all groups before it only added
  induction groups generalizing o with
  | nil => exact .refl _ _
  | cons group groups ih =>
    have hgrows := group_grows h ho (hgroups group List.mem_cons_self)
    have hrest := ih (fun g hg => hgroups g (List.mem_cons_of_mem group hg)) (ho.trans hgrows)
    exact hgrows.trans hrest

theorem grows : CatalogsGrow u.settings.layout u.tree u.outcome.tree := by
  rw [outcome_eq]
  have hstart := CatalogsGrow.refl u.settings.layout u.tree
  exact groups_grow h (fun _ hgroup => hgroup) (o := { tree := u.tree }) hstart

/-- What was missing was added where a catalog was, unless a unit was in the way. -/
theorem supplies {m : MissingTranslation} (hm : m ∈ u.missing) {file : Catalog.File}
    (hfile : u.index.file? (Addition.ofMissing m).location = some file)
    (hid : Text.trimmed m.key.id ≠ "") :
    ∃ d, Holds u.outcome.tree file.path d ∧ d.Supplies (Text.trimmed m.key.id) := by
  have ha : Addition.ofMissing m ∈
      u.additions.filter fun a => a.location = (Addition.ofMissing m).location :=
    List.mem_filter.2 ⟨List.mem_map_of_mem hm, by simp⟩
  have hgroup : ((Addition.ofMissing m).location,
      u.additions.filter fun a => a.location = (Addition.ofMissing m).location) ∈ u.groups :=
    mem_groups.2 ⟨List.ne_nil_of_mem ha, rfl⟩
  obtain ⟨before, after, hsplit⟩ := List.append_of_mem hgroup
  have hbefore : ∀ group ∈ before, group ∈ u.groups := by
    intro group hg
    rw [hsplit]
    exact List.mem_append_left _ hg
  have hafter : ∀ group ∈ after, group ∈ u.groups := by
    intro group hg
    rw [hsplit]
    exact List.mem_append_right _ (List.mem_cons_of_mem _ hg)
  have hsucceeds := h.succeeds
  rw [outcome_eq, hsplit, List.foldl_append, List.foldl_cons] at hsucceeds ⊢
  have hstart := CatalogsGrow.refl u.settings.layout u.tree
  have hgrows := groups_grow h hbefore (o := { tree := u.tree }) hstart
  generalize before.foldl u.writeGroup { tree := u.tree } = o at hgrows hsucceeds ⊢
  have hrest := groups_grow h hafter (hgrows.trans (group_grows h hgrows hgroup))
  have hok := Catalog.failures_of_foldl (fun _ _ => Catalog.failures_of_writeGroup h.writes) after
    hsucceeds
  -- the group of the addition is written to a catalog that has what it had at the beginning
  obtain ⟨d₀, hd₀, hplace₀⟩ := h.readable file.path _ (Catalog.indexOf_file? hfile)
  obtain ⟨d₁, hd₁, hplace₁, -⟩ := hgrows file.path d₀ hd₀ hplace₀
  have hpath : Catalog.additionPath? o.tree u.base u.roots u.index
      (Addition.ofMissing m).location = some file.path := by
    rw [Catalog.additionPath?, hfile]
    rfl
  have hwritten : u.writeGroup o ((Addition.ofMissing m).location,
      u.additions.filter fun a => a.location = (Addition.ofMissing m).location) =
      Catalog.writeTo u.settings o file.path (Addition.ofMissing m).location
        (u.additions.filter fun a => a.location = (Addition.ofMissing m).location) := by
    unfold writeGroup Catalog.writeGroup
    rw [hpath]
  rw [hwritten] at hok hrest ⊢
  obtain ⟨d₂, hd₂, hplace₂, hsupplies⟩ := Catalog.writeTo_supplies h.writes hd₁ hplace₁ hok
  obtain ⟨d₃, hd₃, -, hgrows₃⟩ := hrest file.path d₂ hd₂ hplace₂
  exact ⟨d₃, hd₃, (hsupplies (Addition.ofMissing m) ha hid).grow hgrows₃⟩

/-! ## What is missing afterwards -/

variable {paths : List String} (hpaths : ∀ path ∈ u.paths, path ∈ paths)
include hpaths

theorem catalogOf_after {locale : String} {k : Key} {d : Document}
    (hd : CatalogOf u.filters u.paths u.tree locale k d) :
    ∃ d', CatalogOf u.filters paths u.outcome.tree locale k d' ∧ d.Grows d' ∧
      (d.HasUnit k.id → d'.HasUnit k.id) := by
  obtain ⟨path, hlisted, hload⟩ := hd
  obtain ⟨e, he, hplace⟩ := h.readable path _ hlisted
  obtain rfl := he.eq_of_load hload
  obtain ⟨d', hd', -, hgrows⟩ := grows h path e he hplace
  exact ⟨d', ⟨path, hlisted.mono hpaths, hd'.load⟩, hgrows, hgrows.unit he.keyed hd'.keyed⟩

/-- What was missing of a message is supplied by one of its catalogs. -/
theorem supplies_after {m : MissingTranslation} (hm : m ∈ u.missing)
    (hlocation : (Addition.ofMissing m).location =
      ⟨m.locale, m.reference.key.package, m.reference.key.source⟩) {file : Catalog.File}
    (hfile : u.index.file? ⟨m.locale, m.reference.key.package, m.reference.key.source⟩ =
      some file) (hid : Text.trimmed m.key.id ≠ "") :
    ∃ d, Holds u.outcome.tree file.path d ∧
      CatalogOf u.filters paths u.outcome.tree m.locale m.reference.key d ∧
      d.Supplies (Text.trimmed m.key.id) := by
  have hlisted := (Catalog.indexOf_file? hfile).mono hpaths
  rw [← hlocation] at hfile
  obtain ⟨d, hd, hsupplies⟩ := supplies h hm hfile hid
  exact ⟨d, hd, ⟨file.path, hlisted, hd.load⟩, hsupplies⟩

omit h hpaths in
/-- What is missing afterwards was looked for before, if the locale had a catalog. -/
theorem missing_of_missingAfter {m : MissingTranslation} (hm : m ∈ u.missingAfter paths)
    {file : Catalog.File}
    (hfile : u.index.file? ⟨m.locale, m.reference.key.package, m.reference.key.source⟩ =
      some file) :
    m ∈ (reconcileReference (indexOf u.filters u.fallbacks paths u.outcome.tree) m.locale
        m.reference).missing ∧
      (m ∈ (reconcileReference u.index m.locale m.reference).missing → m ∈ u.missing) := by
  obtain ⟨r, hr, haccepts, locale, hlocale, hmissing⟩ := mem_missing_iff.1 hm
  obtain ⟨rfl, rfl⟩ := reference_of_missing hmissing
  refine ⟨hmissing, ?_⟩
  intro hbefore
  refine mem_missing_iff.2 ⟨m.reference, hr, haccepts, m.locale, ?_, hbefore⟩
  unfold Scope.compared at hlocale ⊢
  by_cases hall : u.scope.locales.isEmpty = true
  · rw [if_pos hall]
    exact Catalog.mem_locales_of_file? (by rw [hfile]; rfl)
  · rw [if_neg hall] at hlocale ⊢
    exact hlocale

/-- Nothing is missing of a message that is not plural where it had a catalog, if its identifier
is added as it is. -/
theorem plain_converges {r : Reference} (hplain : r.isPlural = false) (hid : r.key.id ≠ "")
    (htrimmed : Text.trimmed r.key.id = r.key.id) (hsplit : splitPluralForm r.key.id = none) :
    ∀ m ∈ u.missingAfter paths, m.reference = r →
      u.index.file? ⟨m.locale, r.key.package, r.key.source⟩ = none := by
  rintro m hm rfl
  cases hfile : u.index.file? ⟨m.locale, m.reference.key.package, m.reference.key.source⟩ with
  | none => rfl
  | some file =>
    exfalso
    obtain ⟨hafter, hlooked⟩ := missing_of_missingAfter hm hfile
    obtain ⟨hmessage, hnone⟩ := (missing_plain_iff hplain).1 hafter
    by_cases hbefore : m ∈ (reconcileReference u.index m.locale m.reference).missing
    · have hkey : m.key = m.reference.key := by rw [hmessage]
      have hlocation : (Addition.ofMissing m).location =
          ⟨m.locale, m.reference.key.package, m.reference.key.source⟩ := by
        rw [location_ofMissing, hkey]
      have hadded : Text.trimmed m.key.id = m.reference.key.id := by rw [hkey, htrimmed]
      have hne : Text.trimmed m.key.id ≠ "" := by
        rw [hadded]
        exact hid
      obtain ⟨d, hd, hcatalog, hsupplies⟩ :=
        supplies_after h hpaths (hlooked hbefore) hlocation hfile hne
      obtain ⟨hunit, hforms⟩ := hnone d hcatalog
      rw [hadded] at hsupplies
      rcases hsupplies.plain hsplit with hsingle | hform
      · exact hunit (hd.keyed.hasUnit_iff.2 (.inl hsingle))
      · exact hforms 0 hform
    · -- a unit or a form was there, and is still there
      apply hbefore
      refine (missing_plain_iff hplain).2 ⟨hmessage, ?_⟩
      intro d hd
      obtain ⟨d', hd', hgrows, hunit⟩ := catalogOf_after h hpaths hd
      obtain ⟨hnoUnit, hnoForm⟩ := hnone d' hd'
      exact ⟨fun hu => hnoUnit (hunit hu), fun n hn => hnoForm n (hgrows.form _ n hn)⟩

/-- A form of a plural message is missing where it had a catalog only if a single unit with the
identifier of the message is in the way. -/
theorem plural_converges {r : Reference} (hplural : r.isPlural = true) (hid : r.key.id ≠ "")
    (hstart : Text.trimStart r.key.id.toList = r.key.id.toList) :
    ∀ m ∈ u.missingAfter paths, m.reference = r →
      ∀ file, u.index.file? ⟨m.locale, r.key.package, r.key.source⟩ = some file →
        ∃ d, Holds u.outcome.tree file.path d ∧ d.HasSingle r.key.id := by
  rintro m hm rfl file hfile
  obtain ⟨hafter, hlooked⟩ := missing_of_missingAfter hm hfile
  obtain ⟨n, hn, hform, hnone⟩ := (missing_plural_iff hplural).1 hafter
  have hbefore : m ∈ (reconcileReference u.index m.locale m.reference).missing := by
    refine (missing_plural_iff hplural).2 ⟨n, hn, hform, ?_⟩
    intro d hd
    obtain ⟨d', hd', hgrows, -⟩ := catalogOf_after h hpaths hd
    exact fun hbase => hnone d' hd' (hgrows.form _ n hbase)
  have hkey : m.key = m.reference.key.pluralForm n := by rw [hform]
  have hlocation : (Addition.ofMissing m).location =
      ⟨m.locale, m.reference.key.package, m.reference.key.source⟩ := by
    rw [location_ofMissing, hkey]
    rfl
  have htrimmed : Text.trimmed m.key.id = pluralFormId m.reference.key.id n := by
    rw [hkey]
    exact trimmed_pluralFormId hid hstart n
  have hlimit : n < formLimit := by
    rcases List.mem_cons.1 hn with rfl | hn
    · decide
    · rw [List.mem_singleton.1 hn]
      decide
  have hsplit := splitPluralForm_pluralFormId hid hlimit
  have hne : Text.trimmed m.key.id ≠ "" := by
    intro hempty
    rw [htrimmed] at hempty
    rw [hempty] at hsplit
    cases hsplit
  obtain ⟨d, hd, hcatalog, hsupplies⟩ :=
    supplies_after h hpaths (hlooked hbefore) hlocation hfile hne
  rw [htrimmed] at hsupplies
  exact ⟨d, hd, (hsupplies.form _ n hsplit).resolve_left (hnone d hcatalog)⟩

end Run

/-! ## Runs on one catalog -/

/-- Runs that add to readable catalogs only, where these keep their order, are regular. -/
theorem regular_of_located (hdry : u.settings.dryRun = false)
    (horder : u.settings.layout.orderById = false)
    (hread : ∀ path ∈ u.paths, (u.tree.read path).toOption.any Document.isReadable = true)
    (hlocated : ∀ m ∈ u.missing, (u.index.file? (Addition.ofMissing m).location).isSome = true)
    (hsucceeds : u.outcome.failures.isEmpty = true) : u.Regular where
  writes := hdry
  readable path l hl := by
    obtain ⟨d, hd⟩ := Catalog.exists_holds (hread path hl.mem)
    exact ⟨d, hd, fun _ _ => horder⟩
  direct m hm hnone := by
    have hsome := hlocated m hm
    rw [hnone] at hsome
    cases hsome
  succeeds := List.isEmpty_iff.1 hsucceeds

def ofCatalog (text : String) (r : Reference) : Update where
  references := .ofReferences [r]
  scope := { locales := ["de"] }
  filters := { package := some "app" }
  fallbacks := []
  paths := [mainFile]
  settings := {}
  base := "/"
  roots := []
  tree := treeOf text

/-- A message that is not plural is added to an empty group of its identifier. -/
theorem plain_converges_group :
    let u := ofCatalog ("<x><file><body><group id='a' restype='x-gettext-plurals'/>" ++
      "</body></file></x>") (message "a" false)
    (u.missing.map (·.key.id) = ["a"] ∧ (u.index.file? ⟨"de", "app", "Main"⟩).isSome = true) ∧
      ∀ m ∈ u.missingAfter u.paths, m.reference = message "a" false →
        u.index.file? ⟨m.locale, "app", "Main"⟩ = none := by
  intro u
  have hchecks : ((u.missing.map (·.key.id) = ["a"] ∧
        (u.index.file? ⟨"de", "app", "Main"⟩).isSome = true) ∧
      (∀ path ∈ u.paths, (u.tree.read path).toOption.any Document.isReadable = true) ∧
      (∀ m ∈ u.missing, (u.index.file? (Addition.ofMissing m).location).isSome = true) ∧
      u.outcome.failures.isEmpty = true) := by decide +kernel
  obtain ⟨hfacts, hread, hlocated, hsucceeds⟩ := hchecks
  have hregular := regular_of_located rfl rfl hread hlocated hsucceeds
  exact ⟨hfacts, plain_converges hregular (fun _ h => h) (r := message "a" false) rfl (by decide)
    (by decide +kernel) (by decide +kernel)⟩

/-- The forms of a message stay missing beside a single unit with its identifier. -/
theorem plural_converges_single :
    let u := ofCatalog "<x><file><body><trans-unit id='a'/></body></file></x>" (message "a" true)
    ∃ d, Holds u.outcome.tree mainFile d ∧ d.HasSingle "a" := by
  intro u
  have hchecks : ((∃ m ∈ u.missingAfter u.paths, m.reference = message "a" true ∧
        (u.index.file? ⟨m.locale, "app", "Main"⟩).map Catalog.File.path = some mainFile) ∧
      (∀ path ∈ u.paths, (u.tree.read path).toOption.any Document.isReadable = true) ∧
      (∀ m ∈ u.missing, (u.index.file? (Addition.ofMissing m).location).isSome = true) ∧
      u.outcome.failures.isEmpty = true) := by decide +kernel
  obtain ⟨⟨m, hm, hr, hfile⟩, hread, hlocated, hsucceeds⟩ := hchecks
  obtain ⟨file, hfile, hpath⟩ := Option.map_eq_some_iff.1 hfile
  have hregular := regular_of_located rfl rfl hread hlocated hsucceeds
  have hsingle := plural_converges hregular (fun _ h => h) (r := message "a" true) rfl (by decide)
    (by decide +kernel) m hm hr file hfile
  rw [hpath] at hsingle
  exact hsingle

/-- Runs without failures on catalogs that are read, after which both forms of a message are missing
where it has a catalog. -/
def LeavesOut (u : Update) (r : Reference) (locale : String) : Prop :=
  (r ∈ u.references.references ∧ r.isPlural = true) ∧
    (∀ path ∈ u.paths, (u.tree.read path).toOption.any Document.isReadable = true) ∧
    u.outcome.failures.isEmpty = true ∧
    (u.index.file? ⟨locale, r.key.package, r.key.source⟩).isSome = true ∧
    ∀ n ∈ Key.expectedForms, ⟨locale, r.key.pluralForm n, r⟩ ∈ u.missingAfter u.paths

instance (u : Update) (r : Reference) (locale : String) : Decidable (u.LeavesOut r locale) := by
  unfold LeavesOut
  infer_instance

/-- Forms are left out beside a single unit with their identifier, without an identifier, and if
blanks begin the identifier. -/
theorem plural_left_out :
    (ofCatalog "<x><file><body><trans-unit id='a'/></body></file></x>"
      (message "a" true)).LeavesOut (message "a" true) "de" ∧
    (ofCatalog "<x><file><body><trans-unit id='[0]'/><trans-unit id='[1]'/></body></file></x>"
      (message "" true)).LeavesOut (message "" true) "de" ∧
    (ofCatalog ("<x><file><body><group id='a' restype='x-gettext-plurals'>" ++
      "<trans-unit id='a[0]'/><trans-unit id='a[1]'/></group></body></file></x>")
      (message " a" true)).LeavesOut (message " a" true) "de" :=
  ⟨by decide +kernel, by decide +kernel, by decide +kernel⟩

end Update

end TranslationAudit
