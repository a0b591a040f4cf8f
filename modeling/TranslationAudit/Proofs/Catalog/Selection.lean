import TranslationAudit.Proofs.Catalog.Files
import TranslationAudit.Proofs.Catalog.Pool

/-! # Parts of an index

What an index holds lies at locations, and an index grows at one location at a time. So what it
holds at some locations is the index of the catalogs there.

* `Index.Selects`: an index that is the part of another at some locations.
* `Index.Selects.addItem_inside`, `Index.Selects.addItem_outside`: what a step does to a part;
  `Index.Selects.grow`: what all steps do.
* `filter_allItems`: the steps at some locations are those of the catalogs there.
-/

namespace TranslationAudit.Catalog

def LocalKey.location (k : LocalKey) : Location := ⟨k.locale, k.key.package, k.key.source⟩

/-- The location of the catalog that a fault is about. -/
def Fault.location (f : Fault) : Location :=
  let detail (name : String) : String := (f.context.get? name).getD ""
  ⟨detail "locale", detail "packageKey", detail "sourceName"⟩

def Item.location : Item → Location
  | .entry e => e.localKey.location
  | .form base _ => base.location
  | .file l _ => l
  | .fault f => f.location

/-! ## Growing part by part -/

namespace Index

/-- An index that is the part of another at some locations. -/
structure Selects (p : Location → Bool) (whole part : Index) : Prop where
  entries : part.entries = whole.entries.restrict fun k => p k.location
  pluralGroups : part.pluralGroups = whole.pluralGroups.restrict fun k => p k.location
  files : part.files = whole.files.restrict p
  faults : part.faults = whole.faults.filter fun f => p f.location

/-- Indexes of which all maps ascend. -/
structure Sorted (index : Index) : Prop extends Ordered index where
  files : index.files.Ascending

theorem Sorted.empty : Sorted .empty := ⟨.empty, SortedMap.ascending_empty⟩

theorem Sorted.addItem {index : Index} (h : index.Sorted) (item : Item) :
    (index.addItem item).Sorted := by
  refine ⟨h.toOrdered.addItem item, ?_⟩
  cases item with
  | file l file => exact h.files.insert _ _
  | entry e => exact h.files
  | form base id => exact h.files
  | fault f => exact h.files

theorem Sorted.grow {index : Index} (h : index.Sorted) (items : List Item) :
    (index.grow items).Sorted :=
  List.foldlRecOn (motive := Sorted) items _ h fun _ hother item _ => hother.addItem item

namespace Selects

variable {p : Location → Bool} {whole part : Index}

theorem empty (p : Location → Bool) : Selects p .empty .empty := ⟨rfl, rfl, rfl, rfl⟩

/-- A step at one of the locations changes an index and its part alike. -/
theorem addItem_inside (h : Selects p whole part) (hwhole : whole.Sorted) {item : Item}
    (hp : p item.location = true) : Selects p (whole.addItem item) (part.addItem item) := by
  cases item with
  | entry e =>
    have hentries := SortedMap.restrict_alter_inside (p := fun k => p k.location) hwhole.entries hp
    refine { h with entries := Eq.trans ?_ (hentries fun _ => e).symm }
    rw [← h.entries]
    rfl
  | form base id =>
    have hgroups := SortedMap.restrict_alter_inside (p := fun k => p k.location)
      hwhole.pluralGroups hp
    refine { h with pluralGroups := Eq.trans ?_ (hgroups _).symm }
    rw [← h.pluralGroups]
    rfl
  | file l file =>
    have hfiles := SortedMap.restrict_alter_inside hwhole.files hp
    refine { h with files := Eq.trans ?_ (hfiles fun _ => file).symm }
    rw [← h.files]
    rfl
  | fault f =>
    have hf : p f.location = true := hp
    refine { h with faults := ?_ }
    simp [Index.addItem, addFault, h.faults, hf]

/-- A step elsewhere leaves the part as it is. -/
theorem addItem_outside (h : Selects p whole part) (hwhole : whole.Sorted) {item : Item}
    (hp : p item.location = false) : Selects p (whole.addItem item) part := by
  cases item with
  | entry e =>
    have hentries := SortedMap.restrict_alter_outside (p := fun k => p k.location) hwhole.entries hp
    exact { h with entries := h.entries ▸ (hentries _).symm }
  | form base id =>
    have hgroups := SortedMap.restrict_alter_outside (p := fun k => p k.location)
      hwhole.pluralGroups hp
    exact { h with pluralGroups := h.pluralGroups ▸ (hgroups _).symm }
  | file l file =>
    have hfiles := SortedMap.restrict_alter_outside hwhole.files hp
    exact { h with files := h.files ▸ (hfiles _).symm }
  | fault f =>
    have hf : p f.location = false := hp
    refine { h with faults := ?_ }
    simp [Index.addItem, addFault, h.faults, hf]

/-- The part of an index after some steps is the part before, after those of them that are at its
locations. -/
theorem grow (h : Selects p whole part) (hwhole : whole.Sorted) (items : List Item) :
    Selects p (whole.grow items) (part.grow (items.filter fun i => p i.location)) := by
  induction items generalizing whole part with
  | nil => exact h
  | cons item items ih =>
    rw [List.filter_cons]
    cases hp : p item.location with
    | true => exact ih (h.addItem_inside hwhole hp) (hwhole.addItem item)
    | false => exact ih (h.addItem_outside hwhole hp) (hwhole.addItem item)

/-- A part of a part. -/
theorem trans {q : Location → Bool} {least : Index} (h : Selects p whole part)
    (h' : Selects q part least) : Selects (fun l => p l && q l) whole least := by
  have hmap {κ ν : Type} {l m n : SortedMap κ ν} {r s : κ → Bool} (hm : m = l.restrict r)
      (hn : n = m.restrict s) : n = l.restrict fun k => r k && s k := by
    rw [hn, hm, SortedMap.restrict, SortedMap.restrict, List.filter_filter]
    simp only [SortedMap.restrict, Bool.and_comm]
  refine ⟨hmap h.entries h'.entries, hmap h.pluralGroups h'.pluralGroups, hmap h.files h'.files, ?_⟩
  rw [h'.faults, h.faults, List.filter_filter]
  simp only [Bool.and_comm]

end Selects

end Index

/-! ## The steps at some locations -/

namespace LoadedCatalog

variable (c : LoadedCatalog) {filters filters' : Filters} {pool pool' : Pool}

theorem location_context (message : String) : Fault.location ⟨message, c.context⟩ = c.location := by
  simp [Fault.location, context, Dict.ofList, Dict.get?_insert]

theorem location_mergeFault (message reason : String) :
    Fault.location ⟨message, c.context.insert "reason" reason⟩ = c.location := by
  simp [Fault.location, context, Dict.ofList, Dict.get?_insert]

theorem location_of_mem_unitItems {merged : Dict String (List Texts)} {unit : String × CatalogUnit}
    {item : Item} (h : item ∈ c.unitItems merged unit) : item.location = c.location := by
  obtain ⟨name, u⟩ := unit
  cases u with
  | single u =>
    rw [List.mem_singleton.1 h]
    rfl
  | plural g =>
    obtain ⟨form, -, hitem⟩ := List.mem_flatMap.1 h
    rcases List.mem_cons.1 hitem with rfl | hitem
    · rfl
    · rw [List.mem_singleton.1 hitem]
      rfl

/-- All steps by which an index grows by a catalog are at its location. -/
theorem location_of_mem_items {item : Item} (h : item ∈ c.items filters pool) :
    item.location = c.location := by
  rw [items] at h
  split at h
  · split at h
    · next d hd =>
      rcases List.mem_cons.1 h with rfl | h
      · rfl
      · rw [documentItems] at h
        split at h
        · cases h
        · split at h
          · obtain ⟨unit, -, hitem⟩ := List.mem_flatMap.1 h
            exact c.location_of_mem_unitItems hitem
          · rcases List.mem_cons.1 h with rfl | h
            · exact c.location_mergeFault _ _
            · obtain ⟨unit, -, hitem⟩ := List.mem_flatMap.1 h
              exact c.location_of_mem_unitItems hitem
    · rcases List.mem_cons.1 h with rfl | h
      · exact c.location_context _
      · rw [List.mem_singleton.1 h]
        rfl
  · cases h

/-- What a catalog adds depends on whether its locale is asked for and on the texts of its name. -/
theorem items_congr
    (hlocale : filters.acceptsLocale c.location.locale = filters'.acceptsLocale c.location.locale)
    (hmerge : pool.merge c.name c.location.locale = pool'.merge c.name c.location.locale) :
    c.items filters pool = c.items filters' pool' := by
  unfold items documentItems
  rw [hlocale, hmerge]

end LoadedCatalog

section Parts

variable {filters filters' : Filters} {pool : Pool} {catalogs : List LoadedCatalog}

theorem filter_allItems (p : Location → Bool) :
    (allItems filters pool catalogs).filter (fun i => p i.location) =
      allItems filters pool (catalogs.filter fun c => p c.location) := by
  unfold allItems
  rw [List.filter_flatMap]
  induction catalogs with
  | nil => rfl
  | cons c catalogs ih =>
    rw [List.flatMap_cons, ih, List.filter_cons]
    cases hp : p c.location with
    | true =>
      have hall : (c.items filters pool).filter (fun i => p i.location) = c.items filters pool := by
        rw [List.filter_eq_self]
        intro item hitem
        rw [c.location_of_mem_items hitem, hp]
      rw [hall]
      rfl
    | false =>
      have hnone : (c.items filters pool).filter (fun i => p i.location) = [] := by
        rw [List.filter_eq_nil_iff]
        intro item hitem
        rw [c.location_of_mem_items hitem, hp]
        simp
      rw [hnone]
      rfl

/-- The index for fewer locales is the part in these locales. -/
theorem selects_locales
    (hlocales : ∀ locale, filters'.acceptsLocale locale = true →
      filters.acceptsLocale locale = true) :
    (buildIndex filters pool catalogs).Selects (fun l => filters'.acceptsLocale l.locale)
      (buildIndex filters' pool catalogs) := by
  have hitems : allItems filters' pool catalogs = allItems filters pool
      (catalogs.filter fun c => filters'.acceptsLocale c.location.locale) := by
    unfold allItems
    induction catalogs with
    | nil => rfl
    | cons c catalogs ih =>
      rw [List.flatMap_cons, ih, List.filter_cons]
      cases haccepts : filters'.acceptsLocale c.location.locale with
      | true =>
        rw [c.items_congr (haccepts.trans (hlocales _ haccepts).symm) rfl]
        rfl
      | false =>
        rw [LoadedCatalog.items, haccepts]
        rfl
  have hgrow := (Index.Selects.empty fun l => filters'.acceptsLocale l.locale).grow .empty
    (allItems filters pool catalogs)
  rw [filter_allItems fun l => filters'.acceptsLocale l.locale, ← hitems] at hgrow
  rw [buildIndex_eq_grow, buildIndex_eq_grow]
  exact ⟨hgrow.entries, hgrow.pluralGroups, hgrow.files, hgrow.faults⟩

/-- The index of the catalogs at some locations is the part of the index there, if no other catalog
has the name of one of them. -/
theorem selects_names {p : Location → Bool} {fallbacks : List String}
    (hlocales : filters'.locales = filters.locales)
    (hnames : ∀ c ∈ catalogs, ∀ c' ∈ catalogs, c.name = c'.name → p c.location = p c'.location) :
    (buildIndex filters (.ofCatalogs catalogs fallbacks) catalogs).Selects p
      (buildIndex filters' (.ofCatalogs (catalogs.filter fun c => p c.location) fallbacks)
        (catalogs.filter fun c => p c.location)) := by
  have hpool : allItems filters' (.ofCatalogs (catalogs.filter fun c => p c.location) fallbacks)
      (catalogs.filter fun c => p c.location) =
        allItems filters (.ofCatalogs catalogs fallbacks)
          (catalogs.filter fun c => p c.location) := by
    unfold allItems
    apply List.flatMap_congr
    intro c hc
    obtain ⟨hc, hp⟩ := List.mem_filter.1 hc
    refine c.items_congr (by unfold Filters.acceptsLocale; rw [hlocales]) (Pool.merge_filter ?_)
    intro c' hc' hname
    rw [hnames c' hc' c hc hname, hp]
  have hgrow := (Index.Selects.empty p).grow .empty
    (allItems filters (.ofCatalogs catalogs fallbacks) catalogs)
  rw [filter_allItems, ← hpool] at hgrow
  rw [buildIndex_eq_grow, buildIndex_eq_grow]
  exact ⟨hgrow.entries, hgrow.pluralGroups, hgrow.files, hgrow.faults⟩

end Parts

end TranslationAudit.Catalog
