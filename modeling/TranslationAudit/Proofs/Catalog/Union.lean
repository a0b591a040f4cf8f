import TranslationAudit.Proofs.Catalog.Concrete
import TranslationAudit.Proofs.Catalog.Selection
import TranslationAudit.Proofs.Message.PluralForm

/-! # The index as the union of its catalogs

* `Index.entries_grow_iff`, `Index.formsOf_grow`, `Index.faults_grow`, `Index.mem_sources_grow`:
  what is in an index after several steps, if these do not overwrite each other.
* `Separate.entry_merged`: an entry has the texts of its own unit.
* `Separate`: catalogs at different locations, whose units have different identifiers.
* `Index.IsUnion`: what the index of such catalogs holds; `isUnion_buildIndex` is the proof.
-/

namespace TranslationAudit.Catalog

instance : Std.TransOrd PackageSource :=
  inferInstanceAs (Std.TransCmp (compareLex (compareOn PackageSource.package)
    (compareOn PackageSource.source)))

theorem PackageSource.eq_of_compare {a b : PackageSource} (h : compare a b = .eq) : a = b := by
  obtain ⟨p, s⟩ := a
  obtain ⟨q, t⟩ := b
  change (compare p q).then (compare s t) = .eq at h
  simp only [Ordering.then_eq_eq, Std.LawfulEqOrd.compare_eq_iff_eq] at h
  obtain ⟨rfl, rfl⟩ := h
  rfl

instance : Std.LawfulEqOrd PackageSource := ⟨PackageSource.eq_of_compare⟩

/-- Of lists that are put together, all but one of them empty. -/
theorem flatMap_eq_of_nodup {α β γ : Type} {f : α → β} {g : α → List γ} {l : List α} {a : α}
    (hnodup : (l.map f).Nodup) (ha : a ∈ l) (hnil : ∀ b ∈ l, f b ≠ f a → g b = []) :
    l.flatMap g = g a := by
  induction l with
  | nil => cases ha
  | cons b l ih =>
    obtain ⟨hb, hl⟩ := List.nodup_cons.1 hnodup
    rw [List.flatMap_cons]
    rcases List.mem_cons.1 ha with rfl | ha
    · have hrest : l.flatMap g = [] := by
        rw [List.flatMap_eq_nil_iff]
        intro c hc
        exact hnil c (List.mem_cons_of_mem a hc) fun heq => hb (List.mem_map.2 ⟨c, hc, heq⟩)
      rw [hrest, List.append_nil]
    · have hne : f b ≠ f a := fun heq => hb (List.mem_map.2 ⟨a, ha, heq.symm⟩)
      rw [hnil b List.mem_cons_self hne, List.nil_append]
      exact ih hl ha fun c hc => hnil c (List.mem_cons_of_mem b hc)

/-! ## What several steps add -/

namespace Item

def formId? (base : LocalKey) : Item → Option String
  | .form other id => if other = base then some id else none
  | _ => none

def fault? : Item → Option Fault
  | .fault f => some f
  | _ => none

def source? : Item → Option PackageSource
  | .entry e => some ⟨e.key.package, e.key.source⟩
  | .file l _ => some ⟨l.package, l.source⟩
  | _ => none

theorem location_of_formId? {base : LocalKey} {item : Item} {id : String}
    (h : item.formId? base = some id) : item.location = base.location := by
  cases item with
  | form other form =>
    rw [formId?, Option.ite_none_right_eq_some] at h
    rw [location, h.1]
  | entry e => cases h
  | file l file => cases h
  | fault f => cases h

theorem source_of_source? {item : Item} {s : PackageSource} (h : item.source? = some s) :
    s = ⟨item.location.package, item.location.source⟩ := by
  cases item <;> cases h <;> rfl

end Item

namespace Index

variable {index : Index} {items : List Item}

theorem entries_grow_iff
    (hunique : ∀ e e', .entry e ∈ items → .entry e' ∈ items → e.localKey = e'.localKey → e = e')
    {k : LocalKey} {e : Entry} :
    (empty.grow items).entries.get? k = some e ↔ .entry e ∈ items ∧ e.localKey = k := by
  constructor
  · intro h
    exact (entry_of_grow h).resolve_left nofun
  · rintro ⟨he, hk⟩
    have hsome : ((empty.grow items).entries.get? k).isSome = true :=
      isSome_entry_grow (.inr ⟨e, he, hk⟩)
    obtain ⟨e', he'⟩ := Option.isSome_iff_exists.1 hsome
    obtain ⟨hmem, hk'⟩ := (entry_of_grow he').resolve_left nofun
    rw [he', hunique e e' he hmem (hk.trans hk'.symm)]

theorem files_grow_iff
    (hunique : ∀ l file file', .file l file ∈ items → .file l file' ∈ items → file = file')
    {l : Location} {file : File} :
    (empty.grow items).files.get? l = some file ↔ .file l file ∈ items := by
  constructor
  · intro h
    exact (file_of_grow h).resolve_left nofun
  · intro hfile
    have hsome : ((empty.grow items).files.get? l).isSome = true :=
      isSome_file_grow (.inr ⟨file, hfile⟩)
    obtain ⟨file', hfile'⟩ := Option.isSome_iff_exists.1 hsome
    have hmem := (file_of_grow hfile').resolve_left nofun
    rw [hfile', hunique l file file' hfile hmem]

theorem formsOf_grow (h : index.Ordered) {base : LocalKey}
    (hnodup : (index.formsOf base ++ items.filterMap (Item.formId? base)).Nodup) :
    (index.grow items).formsOf base =
      index.formsOf base ++ items.filterMap (Item.formId? base) := by
  induction items generalizing index with
  | nil => simp [grow]
  | cons item items ih =>
    have hstep : (index.addItem item).formsOf base =
        index.formsOf base ++ (item.formId? base).toList := by
      cases item with
      | form other id =>
        rw [addItem, formsOf, get?_addForm h, Item.formId?]
        by_cases hbase : other = base
        · subst hbase
          have hid : id ∉ index.formsOf other := by
            intro hid
            rw [List.filterMap_cons, Item.formId?, if_pos rfl] at hnodup
            exact (List.nodup_append.1 hnodup).2.2 id hid id List.mem_cons_self rfl
          rw [formsOf] at hid ⊢
          simp [hid]
        · rw [if_neg (Ne.symm hbase), if_neg hbase, Option.toList_none, List.append_nil]
          rfl
      | entry e => exact (List.append_nil _).symm
      | file l file => exact (List.append_nil _).symm
      | fault f => exact (List.append_nil _).symm
    have hids : (item :: items).filterMap (Item.formId? base) =
        (item.formId? base).toList ++ items.filterMap (Item.formId? base) := by
      cases hid : item.formId? base <;> simp [hid]
    rw [hids, ← List.append_assoc, ← hstep] at hnodup ⊢
    exact ih (h.addItem item) hnodup

theorem faults_grow (index : Index) (items : List Item) :
    (index.grow items).faults = index.faults ++ items.filterMap Item.fault? := by
  induction items generalizing index with
  | nil => simp [grow]
  | cons item items ih =>
    have hgrow : index.grow (item :: items) = (index.addItem item).grow items := rfl
    rw [hgrow, ih]
    cases item with
    | fault f => simp [addItem, addFault, Item.fault?]
    | entry e => rfl
    | form base id => rfl
    | file l file => rfl

theorem mem_sources_grow {s : PackageSource} :
    s ∈ (index.grow items).sources ↔
      s ∈ index.sources ∨ ∃ item ∈ items, item.source? = some s := by
  induction items generalizing index with
  | nil => simp [grow]
  | cons item items ih =>
    have hstep : s ∈ (index.addItem item).sources ↔ s ∈ index.sources ∨ item.source? = some s := by
      cases item with
      | entry e =>
        rw [addItem, addEntry, mem_insertAscending, or_comm, Item.source?, Option.some.injEq,
          eq_comm]
      | file l file =>
        rw [addItem, addFile, mem_insertAscending, or_comm, Item.source?, Option.some.injEq,
          eq_comm]
      | form base id => exact (or_iff_left (by rintro ⟨⟩)).symm
      | fault f => exact (or_iff_left (by rintro ⟨⟩)).symm
    have hgrow : index.grow (item :: items) = (index.addItem item).grow items := rfl
    rw [hgrow, ih, hstep, or_assoc, List.exists_mem_cons_iff]

end Index

/-! ## What a catalog adds -/

def CatalogUnit.formIds (id : String) : CatalogUnit → List String
  | .single _ => []
  | .plural g => g.forms.keys.map (pluralFormId id)

namespace LoadedCatalog

variable (c : LoadedCatalog) {filters : Filters} {pool : Pool} {d : Document}

/-- The fault of a catalog with units in what is no locale. -/
def mergeFault? (d : Document) : Option Fault :=
  if d.isEmpty || Locale.isLocale c.location.locale then none
  else some ⟨mergeFailed, c.context.insert "reason" (InvalidLocale.message ⟨c.location.locale⟩)⟩

/-- What is wrong with a catalog that takes part. -/
def fault? (filters : Filters) : Option Fault :=
  if filters.acceptsLocale c.location.locale then
    match c.document with
    | .ok d => c.mergeFault? d
    | .error e => some ⟨e.message, c.context⟩
  else none

def merged (pool : Pool) : Dict String (List Texts) :=
  (pool.merge c.name c.location.locale).toOption.getD .empty

/-- The entry of a unit with the texts of the catalog itself. -/
def ownEntry (id : String) (u : TransUnit) : Entry :=
  ⟨c.location.locale, (c.localKey id).key, c.path, u.source, u.target, u.state⟩

theorem documentItems_eq (pool : Pool) (d : Document) :
    c.documentItems pool d = ((c.mergeFault? d).map Item.fault).toList ++
      d.units.entries.flatMap (c.unitItems (c.merged pool)) := by
  rw [documentItems, mergeFault?, merged, Pool.merge, Pool.chain]
  cases hempty : d.isEmpty with
  | true =>
    have hnone : d.units.entries = [] := List.isEmpty_iff.1 hempty
    simp [hnone]
  | false =>
    cases hlocale : Locale.isLocale c.location.locale with
    | false =>
      rw [Locale.chain?_eq_none_iff.2 hlocale]
      rfl
    | true =>
      cases hchain : Locale.chain? pool.fallbacks c.location.locale with
      | none =>
        rw [Locale.chain?_eq_none_iff.1 hchain] at hlocale
        cases hlocale
      | some locales => rfl

theorem items_of_indexed (pool : Pool) (h : c.Indexed filters d) :
    c.items filters pool = .file c.location ⟨c.path, d.metadata⟩ :: c.documentItems pool d := by
  obtain ⟨haccepts, hd⟩ := h
  rw [items, if_pos haccepts, hd]

theorem filterMap_fault_items :
    (c.items filters pool).filterMap Item.fault? = (c.fault? filters).toList := by
  have hunits : (d : Document) →
      (d.units.entries.flatMap (c.unitItems (c.merged pool))).filterMap Item.fault? = [] := by
    intro d
    rw [List.filterMap_eq_nil_iff]
    intro item hitem
    obtain ⟨⟨id, u⟩, -, hitem⟩ := List.mem_flatMap.1 hitem
    cases u with
    | single u =>
      rw [List.mem_singleton.1 hitem]
      rfl
    | plural g =>
      obtain ⟨form, -, hitem⟩ := List.mem_flatMap.1 hitem
      rcases List.mem_cons.1 hitem with rfl | hitem
      · rfl
      · rw [List.mem_singleton.1 hitem]
        rfl
  rw [items, fault?]
  cases filters.acceptsLocale c.location.locale with
  | false => rfl
  | true =>
    cases c.document with
    | error e => rfl
    | ok d =>
      simp only [if_true]
      rw [List.filterMap_cons_none rfl, documentItems_eq, List.filterMap_append, hunits,
        List.append_nil]
      cases c.mergeFault? d <;> rfl

theorem entry_mem_items {e : Entry} :
    .entry e ∈ c.items filters pool ↔
      ∃ d, c.Indexed filters d ∧ ∃ id u, (id, u) ∈ d.concreteUnits ∧
        e = c.entry (c.merged pool) id u := by
  constructor
  · intro he
    rcases c.indexed_of_mem_items he with ⟨f, hf⟩ | ⟨file, hfile, -⟩ | ⟨d, hd, he⟩
    · cases hf
    · cases hfile
    · rw [documentItems_eq, List.mem_append] at he
      rcases he with hfault | he
      · cases hfault' : c.mergeFault? d <;> simp [hfault'] at hfault
      · obtain ⟨unit, hunit, he⟩ := List.mem_flatMap.1 he
        obtain ⟨id, u, hu, rfl⟩ := c.entry_mem_unitItems.1 he
        exact ⟨d, hd, id, u, List.mem_flatMap.2 ⟨unit, hunit, hu⟩, rfl⟩
  · rintro ⟨d, hd, id, u, hu, rfl⟩
    obtain ⟨unit, hunit, hu⟩ := List.mem_flatMap.1 hu
    refine c.mem_items_of_document hd ?_
    rw [documentItems_eq, List.mem_append]
    exact .inr (List.mem_flatMap.2 ⟨unit, hunit, c.entry_mem_unitItems.2 ⟨id, u, hu, rfl⟩⟩)

theorem file_mem_items {l : Location} {file : File} :
    .file l file ∈ c.items filters pool ↔
      filters.acceptsLocale c.location.locale = true ∧ l = c.location ∧
        file = ⟨c.path, (c.document.toOption.map Document.metadata).getD {}⟩ := by
  have hunit {merged : Dict String (List Texts)} {unit : String × CatalogUnit} :
      .file l file ∉ c.unitItems merged unit := by
    obtain ⟨id, u⟩ := unit
    cases u <;> simp [unitItems]
  rw [items]
  cases filters.acceptsLocale c.location.locale with
  | false => simp
  | true =>
    cases c.document with
    | error e => simp [Except.toOption]
    | ok d =>
      have hdocument : .file l file ∉ c.documentItems pool d := by
        rw [documentItems_eq, List.mem_append]
        rintro (hfault | hfile)
        · cases hfault' : c.mergeFault? d <;> simp [hfault'] at hfault
        · obtain ⟨unit, -, hfile⟩ := List.mem_flatMap.1 hfile
          exact hunit hfile
      simp [hdocument, Except.toOption]

theorem filterMap_formId_unitItems (merged : Dict String (List Texts)) (id : String)
    (unit : String × CatalogUnit) :
    (c.unitItems merged unit).filterMap (Item.formId? (c.localKey id)) =
      if unit.1 = id then unit.2.formIds id else [] := by
  obtain ⟨name, u⟩ := unit
  have hkey : c.localKey name = c.localKey id ↔ name = id := by simp [localKey]
  cases u with
  | single u => simp [unitItems, Item.formId?, CatalogUnit.formIds]
  | plural g =>
    simp only [unitItems, CatalogUnit.formIds, SortedMap.keys, List.map_map]
    induction g.forms.entries with
    | nil => simp
    | cons form forms ih =>
      rw [List.flatMap_cons, List.filterMap_append, ih]
      by_cases hname : name = id <;> simp [Item.formId?, hkey, hname]

end LoadedCatalog

/-! ## Catalogs that do not overwrite each other -/

/-- Catalogs whose concrete units have different identifiers. -/
structure Document.Unambiguous (d : Document) : Prop where
  distinct : d.units.Distinct
  ascending : ∀ id g, (id, .plural g) ∈ d.units.entries → g.forms.Ascending
  ids : (d.concreteUnits.map Prod.fst).Nodup

/-- Catalogs at different locations, whose names tell the packages apart. -/
structure Separate (catalogs : List LoadedCatalog) : Prop where
  locations : (catalogs.map LoadedCatalog.location).Nodup
  packages : ∀ c ∈ catalogs, ':' ∉ c.location.package.toList
  documents : ∀ c ∈ catalogs, ∀ d, c.document = .ok d → d.Unambiguous

namespace Separate

variable {catalogs : List LoadedCatalog} {fallbacks : List String} {filters : Filters}
variable {c c' : LoadedCatalog} {d : Document}

theorem eq_of_location (h : Separate catalogs) (hc : c ∈ catalogs) (hc' : c' ∈ catalogs)
    (hlocation : c.location = c'.location) : c = c' :=
  List.inj_on_of_nodup_map h.locations hc hc' hlocation

theorem eq_of_name (h : Separate catalogs) (hc : c ∈ catalogs) (hc' : c' ∈ catalogs)
    (hlocale : c.location.locale = c'.location.locale) (hname : c.name = c'.name) : c = c' := by
  obtain ⟨hpackage, hsource⟩ := catalogName_inj (h.packages c hc) (h.packages c' hc') hname
  refine h.eq_of_location hc hc' ?_
  obtain ⟨path, ⟨locale, package, source⟩, document⟩ := c
  obtain ⟨path', ⟨locale', package', source'⟩, document'⟩ := c'
  cases hlocale
  cases hpackage
  cases hsource
  rfl

/-- An entry has the texts of its own unit, whatever other locales have. -/
theorem entry_merged (h : Separate catalogs) (hc : c ∈ catalogs) (hd : c.document = .ok d)
    {id : String} {u : TransUnit} (hu : (id, u) ∈ d.concreteUnits) :
    c.entry (c.merged (.ofCatalogs catalogs fallbacks)) id u = c.ownEntry id u := by
  have hlookup : d.concreteUnits.lookup id = some u :=
    (Dict.get?_eq_some_iff (d := ⟨d.concreteUnits⟩) (h.documents c hc d hd).ids).2 hu
  unfold LoadedCatalog.merged
  cases hmerge : (Pool.ofCatalogs catalogs fallbacks).merge c.name c.location.locale with
  | error e => rfl
  | ok merged =>
    have honly : ∀ c' ∈ catalogs, c'.location.locale = c.location.locale → c'.name = c.name →
        c' = c := fun c' hc' hlocale hname => h.eq_of_name hc' hc hlocale hname
    have hown := Pool.head?_merge hc hd honly hmerge hlookup
    unfold LoadedCatalog.entry
    dsimp only [Except.toOption, Option.getD_some]
    rw [hown]
    rfl

theorem entry_mem_allItems (h : Separate catalogs) {e : Entry} :
    .entry e ∈ allItems filters (.ofCatalogs catalogs fallbacks) catalogs ↔
      ∃ c ∈ catalogs, ∃ d, c.Indexed filters d ∧ ∃ id u, (id, u) ∈ d.concreteUnits ∧
        e = c.ownEntry id u := by
  rw [mem_allItems]
  simp only [LoadedCatalog.entry_mem_items]
  constructor
  · rintro ⟨c, hc, d, hd, id, u, hu, rfl⟩
    exact ⟨c, hc, d, hd, id, u, hu, h.entry_merged hc hd.2 hu⟩
  · rintro ⟨c, hc, d, hd, id, u, hu, rfl⟩
    exact ⟨c, hc, d, hd, id, u, hu, (h.entry_merged hc hd.2 hu).symm⟩

theorem eq_of_localKey (h : Separate catalogs) {e e' : Entry}
    (he : .entry e ∈ allItems filters (.ofCatalogs catalogs fallbacks) catalogs)
    (he' : .entry e' ∈ allItems filters (.ofCatalogs catalogs fallbacks) catalogs)
    (hkey : e.localKey = e'.localKey) : e = e' := by
  obtain ⟨c, hc, d, hd, id, u, hu, rfl⟩ := h.entry_mem_allItems.1 he
  obtain ⟨c', hc', d', hd', id', u', hu', rfl⟩ := h.entry_mem_allItems.1 he'
  have hlocation : c.location = c'.location := congrArg LocalKey.location hkey
  have hid : id = id' := congrArg (fun k => k.key.id) hkey
  obtain rfl := h.eq_of_location hc hc' hlocation
  obtain rfl : d = d' := by
    have hsame := hd.2.symm.trans hd'.2
    cases hsame
    rfl
  subst hid
  have hunit := List.inj_on_of_nodup_map (h.documents c hc d hd.2).ids hu hu' rfl
  cases hunit
  rfl

/-- What the catalogs add to the forms of a plural message are those of its group. -/
theorem formIds_allItems (h : Separate catalogs) (fallbacks : List String) (hc : c ∈ catalogs)
    (hd : c.Indexed filters d) {id : String} {u : CatalogUnit} (hu : (id, u) ∈ d.units.entries) :
    (allItems filters (.ofCatalogs catalogs fallbacks) catalogs).filterMap
      (Item.formId? (c.localKey id)) = u.formIds id := by
  have hother : ∀ c' ∈ catalogs, c'.location ≠ c.location →
      (c'.items filters (.ofCatalogs catalogs fallbacks)).filterMap
        (Item.formId? (c.localKey id)) = [] := by
    intro c' hc' hne
    rw [List.filterMap_eq_nil_iff]
    intro item hitem
    rw [Option.eq_none_iff_forall_ne_some]
    intro form hform
    apply hne
    rw [← c'.location_of_mem_items hitem, Item.location_of_formId? hform]
    rfl
  have hfault (f : Option Fault) :
      (f.map Item.fault).toList.filterMap (Item.formId? (c.localKey id)) = [] := by
    cases f <;> rfl
  unfold allItems
  rw [List.filterMap_flatMap, flatMap_eq_of_nodup h.locations hc hother, c.items_of_indexed _ hd,
    List.filterMap_cons_none rfl, c.documentItems_eq, List.filterMap_append, hfault,
    List.nil_append, List.filterMap_flatMap]
  simp only [c.filterMap_formId_unitItems]
  have hdistinct : (d.units.entries.map Prod.fst).Nodup := (h.documents c hc d hd.2).distinct
  rw [flatMap_eq_of_nodup hdistinct hu fun unit _ hne => if_neg hne, if_pos rfl]

theorem nodup_formIds (h : d.Unambiguous) {id : String} {u : CatalogUnit}
    (hu : (id, u) ∈ d.units.entries) : (u.formIds id).Nodup := by
  have hids := h.ids
  rw [Document.concreteUnits, List.map_flatMap, List.nodup_flatMap] at hids
  have hunit := hids.1 (id, u) hu
  cases u with
  | single u => exact List.nodup_nil
  | plural g =>
    simp only [Document.concreteUnitsOf, List.map_map] at hunit
    rw [CatalogUnit.formIds, SortedMap.keys, List.map_map]
    exact hunit

theorem formsOf_buildIndex (h : Separate catalogs) (fallbacks : List String) (hc : c ∈ catalogs)
    (hd : c.Indexed filters d) {id : String} {u : CatalogUnit} (hu : (id, u) ∈ d.units.entries) :
    (buildIndex filters (.ofCatalogs catalogs fallbacks) catalogs).formsOf (c.localKey id) =
      u.formIds id := by
  have hids := h.formIds_allItems fallbacks hc hd hu
  have hnodup := nodup_formIds (h.documents c hc d hd.2) hu
  rw [← hids] at hnodup ⊢
  rw [buildIndex_eq_grow]
  exact Index.formsOf_grow .empty hnodup

end Separate

/-! ## The union -/

/-- Whether a package and a source are those of a catalog that takes part. -/
def IsKnown (filters : Filters) (catalogs : List LoadedCatalog) (package source : String) : Prop :=
  ∃ c ∈ catalogs, filters.acceptsLocale c.location.locale = true ∧
    c.location.package = package ∧ c.location.source = source

/-- An index that holds just what the catalogs hold that take part. -/
structure Index.IsUnion (filters : Filters) (catalogs : List LoadedCatalog) (index : Index) :
    Prop where
  entry : ∀ locale key e, index.entry? locale key = some e ↔
    ∃ c ∈ catalogs, ∃ d, c.Indexed filters d ∧
      c.location = ⟨locale, key.package, key.source⟩ ∧ ∃ u, (key.id, u) ∈ d.concreteUnits ∧
        e = ⟨locale, key, c.path, u.source, u.target, u.state⟩
  forms : ∀ locale base ids, index.forms? locale base = some ids ↔
    ids ≠ [] ∧ ∃ c ∈ catalogs, ∃ d, c.Indexed filters d ∧
      c.location = ⟨locale, base.package, base.source⟩ ∧
      ∃ g, (base.id, .plural g) ∈ d.units.entries ∧ g.forms.keys.Pairwise (· < ·) ∧
        ids = g.forms.keys.map (pluralFormId base.id)
  file : ∀ l file, index.file? l = some file ↔
    ∃ c ∈ catalogs, filters.acceptsLocale c.location.locale = true ∧ c.location = l ∧
      file = ⟨c.path, (c.document.toOption.map Document.metadata).getD {}⟩
  faults : index.faults = catalogs.filterMap (·.fault? filters)
  missing : ∀ l, l ∈ index.missingCatalogs ↔
    l.locale ∈ filters.locales ∧ IsKnown filters catalogs l.package l.source ∧
      filters.accepts l.package l.source = true ∧ index.file? l = none
  missing_loaded : (∀ c ∈ catalogs, filters.accepts c.location.package c.location.source = true) →
    ∀ l, l ∈ index.missingCatalogs ↔
      l.locale ∈ filters.locales ∧ IsKnown filters catalogs l.package l.source ∧
        index.file? l = none

section Union

variable {filters : Filters} {pool : Pool} {catalogs : List LoadedCatalog}

theorem faults_buildIndex :
    (buildIndex filters pool catalogs).faults =
      catalogs.filterMap (·.fault? filters) := by
  rw [buildIndex_eq_grow]
  dsimp only
  rw [Index.faults_grow, allItems, List.filterMap_flatMap]
  simp only [LoadedCatalog.filterMap_fault_items]
  change [] ++ _ = _
  rw [List.nil_append]
  induction catalogs with
  | nil => rfl
  | cons c catalogs ih =>
    rw [List.flatMap_cons, ih]
    cases hfault : c.fault? filters <;> simp [hfault]

theorem mem_sources_allItems {s : PackageSource} :
    s ∈ (Index.empty.grow (allItems filters pool catalogs)).sources ↔
      IsKnown filters catalogs s.package s.source := by
  rw [Index.mem_sources_grow]
  constructor
  · rintro (hnone | ⟨item, hitem, hs⟩)
    · cases hnone
    · obtain ⟨c, hc, hitem⟩ := mem_allItems.1 hitem
      have haccepts : filters.acceptsLocale c.location.locale = true := by
        by_contra hnot
        rw [LoadedCatalog.items, if_neg hnot] at hitem
        cases hitem
      obtain rfl := Item.source_of_source? hs
      rw [c.location_of_mem_items hitem]
      exact ⟨c, hc, haccepts, rfl, rfl⟩
  · rintro ⟨c, hc, haccepts, hpackage, hsource⟩
    refine .inr ⟨_, mem_allItems.2 ⟨c, hc, c.file_mem_items.2 ⟨haccepts, rfl, rfl⟩⟩, ?_⟩
    rw [Item.source?, hpackage, hsource]

theorem mem_missingCatalogs {l : Location} :
    l ∈ (buildIndex filters pool catalogs).missingCatalogs ↔
      l.locale ∈ filters.locales ∧ IsKnown filters catalogs l.package l.source ∧
        filters.accepts l.package l.source = true ∧
        (buildIndex filters pool catalogs).file? l = none := by
  obtain ⟨locale, package, source⟩ := l
  have hfile : (buildIndex filters pool catalogs).file? ⟨locale, package, source⟩ =
      (Index.empty.grow (allItems filters pool catalogs)).file? ⟨locale, package, source⟩ := by
    rw [buildIndex_eq_grow]
    rfl
  have hknown : ⟨package, source⟩ ∈ (Index.empty.grow (allItems filters pool catalogs)).sources ↔
      IsKnown filters catalogs package source := mem_sources_allItems
  rw [hfile, buildIndex_eq_grow]
  dsimp only
  rw [← hknown, Index.absent, List.mem_flatMap]
  simp only [List.mem_filter, List.mem_map, Option.isNone_iff_eq_none]
  constructor
  · rintro ⟨s, ⟨hs, haccepts⟩, ⟨locale', hlocale, heq⟩, hnone⟩
    cases heq
    exact ⟨hlocale, hs, haccepts, hnone⟩
  · rintro ⟨hlocale, hs, haccepts, hnone⟩
    exact ⟨⟨package, source⟩, ⟨hs, haccepts⟩, ⟨locale, hlocale, rfl⟩, hnone⟩

/-! ### Entries, forms and files -/

variable {fallbacks : List String} (h : Separate catalogs)
include h

theorem Separate.entry?_iff {locale : String} {key : Key} {e : Entry} :
    Index.entry? (buildIndex filters (.ofCatalogs catalogs fallbacks) catalogs) locale key =
        some e ↔
      ∃ c ∈ catalogs, ∃ d, c.Indexed filters d ∧
        c.location = ⟨locale, key.package, key.source⟩ ∧ ∃ u, (key.id, u) ∈ d.concreteUnits ∧
          e = ⟨locale, key, c.path, u.source, u.target, u.state⟩ := by
  rw [buildIndex_eq_grow, Index.entry?,
    Index.entries_grow_iff fun e e' => h.eq_of_localKey, h.entry_mem_allItems]
  constructor
  · rintro ⟨⟨c, hc, d, hd, id, u, hu, rfl⟩, hkey⟩
    cases hkey
    exact ⟨c, hc, d, hd, rfl, u, hu, rfl⟩
  · rintro ⟨c, hc, d, hd, hlocation, u, hu, rfl⟩
    refine ⟨⟨c, hc, d, hd, key.id, u, hu, ?_⟩, rfl⟩
    rw [LoadedCatalog.ownEntry, LoadedCatalog.localKey, hlocation]

theorem Separate.forms?_iff {locale : String} {base : Key} {ids : List String} :
    (buildIndex filters (.ofCatalogs catalogs fallbacks) catalogs).forms? locale base = some ids ↔
      ids ≠ [] ∧ ∃ c ∈ catalogs, ∃ d, c.Indexed filters d ∧
        c.location = ⟨locale, base.package, base.source⟩ ∧
        ∃ g, (base.id, .plural g) ∈ d.units.entries ∧ g.forms.keys.Pairwise (· < ·) ∧
          ids = g.forms.keys.map (pluralFormId base.id) := by
  constructor
  · intro hforms
    obtain ⟨hne, hids⟩ := buildIndex_forms? hforms
    obtain ⟨id, hid⟩ := List.exists_mem_of_ne_nil ids hne
    rw [hids] at hid
    obtain ⟨c, hc, d, hd, name, g, -, -, hg, -, hbase, -⟩ := mem_formsOf_buildIndex.1 hid
    rw [hbase, h.formsOf_buildIndex fallbacks hc hd hg] at hids
    cases hbase
    have hkeys : g.forms.keys.Pairwise (· < ·) := by
      rw [SortedMap.keys, List.pairwise_map]
      exact ((h.documents c hc d hd.2).ascending name g hg).imp Nat.compare_eq_lt.1
    exact ⟨hne, c, hc, d, hd, rfl, g, hg, hkeys, hids⟩
  · rintro ⟨hne, c, hc, d, hd, hlocation, g, hg, -, rfl⟩
    have hids := h.formsOf_buildIndex fallbacks hc hd hg
    have hkey : c.localKey base.id = ⟨locale, base⟩ := by
      rw [LoadedCatalog.localKey, hlocation]
    rw [hkey, Index.formsOf, ← Index.forms?] at hids
    cases hforms : Index.forms? (buildIndex filters (.ofCatalogs catalogs fallbacks) catalogs)
        locale base with
    | none =>
      rw [hforms] at hids
      exact absurd hids.symm hne
    | some forms =>
      rw [hforms] at hids
      exact congrArg some hids

theorem Separate.file?_iff {l : Location} {file : File} :
    (buildIndex filters (.ofCatalogs catalogs fallbacks) catalogs).file? l = some file ↔
      ∃ c ∈ catalogs, filters.acceptsLocale c.location.locale = true ∧ c.location = l ∧
        file = ⟨c.path, (c.document.toOption.map Document.metadata).getD {}⟩ := by
  have hunique : ∀ l file file',
      .file l file ∈ allItems filters (.ofCatalogs catalogs fallbacks) catalogs →
      .file l file' ∈ allItems filters (.ofCatalogs catalogs fallbacks) catalogs →
      file = file' := by
    intro l file file' hfile hfile'
    obtain ⟨c, hc, hfile⟩ := mem_allItems.1 hfile
    obtain ⟨c', hc', hfile'⟩ := mem_allItems.1 hfile'
    obtain ⟨-, hl, rfl⟩ := c.file_mem_items.1 hfile
    obtain ⟨-, hl', rfl⟩ := c'.file_mem_items.1 hfile'
    rw [h.eq_of_location hc hc' (hl.symm.trans hl')]
  rw [buildIndex_eq_grow, Index.file?, Index.files_grow_iff hunique, mem_allItems]
  simp only [LoadedCatalog.file_mem_items]
  constructor
  · rintro ⟨c, hc, haccepts, rfl, rfl⟩
    exact ⟨c, hc, haccepts, rfl, rfl⟩
  · rintro ⟨c, hc, haccepts, rfl, rfl⟩
    exact ⟨c, hc, haccepts, rfl, rfl⟩

end Union

/-- The index of catalogs that do not overwrite each other is their union. -/
theorem isUnion_buildIndex {catalogs : List LoadedCatalog} (h : Separate catalogs)
    (filters : Filters) (fallbacks : List String) :
    (buildIndex filters (.ofCatalogs catalogs fallbacks) catalogs).IsUnion filters catalogs where
  entry _ _ _ := h.entry?_iff
  forms _ _ _ := h.forms?_iff
  file _ _ := h.file?_iff
  faults := faults_buildIndex
  missing _ := mem_missingCatalogs
  missing_loaded hloaded l := by
    rw [mem_missingCatalogs]
    constructor
    · rintro ⟨hlocale, hknown, -, hnone⟩
      exact ⟨hlocale, hknown, hnone⟩
    · rintro ⟨hlocale, hknown, hnone⟩
      obtain ⟨c, hc, -, hpackage, hsource⟩ := id hknown
      refine ⟨hlocale, hknown, ?_, hnone⟩
      rw [← hpackage, ← hsource]
      exact hloaded c hc

/-- A catalog as it is read from a text. -/
def LoadedCatalog.ofText (path : String) (l : Location) (text : String) : LoadedCatalog :=
  ⟨path, l, Document.parse path text⟩

def regionCatalogs : List LoadedCatalog := [
  .ofText "1.xlf" ⟨"de", "app", "Main"⟩ ("<x><file><body><trans-unit id='a'><target/></trans-unit>" ++
    "<group id='b' restype='x-gettext-plurals'><trans-unit id='b[1]'/><trans-unit id='b[0]'/>" ++
    "</group></body></file></x>"),
  .ofText "2.xlf" ⟨"de_CH", "app", "Main"⟩ "<x><file><body><trans-unit id='a'/></body></file></x>",
  .ofText "3.xlf" ⟨"?", "app", "Main"⟩ "<x><file><body><trans-unit id='a'/></body></file></x>",
  .ofText "4.xlf" ⟨"de", "app", "Other"⟩ "no catalog"]

def regionFilters : Filters := ⟨["de", "de_CH", "?"], none, none⟩

def regionIndex : Index :=
  buildIndex regionFilters (.ofCatalogs regionCatalogs ["de"]) regionCatalogs

/-- The text of the region is its own although that of the language is complete, the locale that
is none is a fault beside the text that is no catalog, and a source has no catalog in the region. -/
theorem isUnion_buildIndex_region :
    (regionIndex.entries.values.map (fun e => (e.file, e.key.id, e.target)) =
        [("3.xlf", "a", none), ("1.xlf", "a", some ""), ("1.xlf", "b[0]", none),
          ("1.xlf", "b[1]", none), ("2.xlf", "a", none)] ∧
      regionIndex.forms? "de" ⟨"app", "Main", "b"⟩ = some ["b[0]", "b[1]"] ∧
      regionIndex.faults.map (·.context.get? "file") = [some "3.xlf", some "4.xlf"] ∧
      regionIndex.missingCatalogs = [⟨"de_CH", "app", "Other"⟩, ⟨"?", "app", "Other"⟩]) ∧
      regionIndex.IsUnion regionFilters regionCatalogs := by
  -- what the index holds and which ids the texts have is found in one evaluation
  refine And.imp_right (a := ∀ c ∈ regionCatalogs, c.document.toOption.all
    (fun d => (d.concreteUnits.map Prod.fst).Nodup) = true) ?_ (by decide +kernel)
  intro hids
  have htexts : ∀ c ∈ regionCatalogs, ∃ path text, c.document = Document.parse path text := by
    simp [regionCatalogs, LoadedCatalog.ofText]
  have hseparate : Separate regionCatalogs := by
    refine ⟨by decide, by decide, ?_⟩
    intro c hc d hd
    obtain ⟨path, text, hparse⟩ := htexts c hc
    have hkeyed : d.Keyed := Document.keyed_of_parse (hparse.symm.trans hd)
    have hnodup := hids c hc
    rw [hd] at hnodup
    exact ⟨hkeyed.distinct, hkeyed.ascending, of_decide_eq_true hnodup⟩
  exact isUnion_buildIndex hseparate regionFilters ["de"]

end TranslationAudit.Catalog
