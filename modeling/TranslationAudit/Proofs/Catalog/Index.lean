import TranslationAudit.Catalog.Build
import TranslationAudit.Proofs.Collection.SortedMap

/-! # What an index holds

* `Item`, `LoadedCatalog.items`: the steps by which an index grows, and those of a catalog.
* `Index.entry_of_grow`, `Index.file_of_grow`, `Index.mem_formsOf_grow`: what is in an index after
  such steps.
* `buildIndex_entry?`, `buildIndex_forms?`, `buildIndex_file?`: look-ups in the index of catalogs
  by the units of these.
-/

namespace TranslationAudit

/-! ## The order of keys -/

instance : Std.TransOrd Key :=
  inferInstanceAs (Std.TransCmp (compareLex (compareOn Key.package)
    (compareLex (compareOn Key.source) (compareOn Key.id))))

theorem Key.eq_of_compare {a b : Key} (h : compare a b = .eq) : a = b := by
  obtain ⟨p, s, i⟩ := a
  obtain ⟨q, t, j⟩ := b
  change (compare p q).then ((compare s t).then (compare i j)) = .eq at h
  simp only [Ordering.then_eq_eq, Std.LawfulEqOrd.compare_eq_iff_eq] at h
  obtain ⟨rfl, rfl, rfl⟩ := h
  rfl

instance : Std.LawfulEqOrd Key := ⟨Key.eq_of_compare⟩

namespace Catalog

instance : Std.TransOrd LocalKey :=
  inferInstanceAs (Std.TransCmp (compareLex (compareOn LocalKey.locale) (compareOn LocalKey.key)))

theorem LocalKey.eq_of_compare {a b : LocalKey} (h : compare a b = .eq) : a = b := by
  obtain ⟨l, k⟩ := a
  obtain ⟨m, j⟩ := b
  change (compare l m).then (compare k j) = .eq at h
  simp only [Ordering.then_eq_eq, Std.LawfulEqOrd.compare_eq_iff_eq] at h
  obtain ⟨rfl, rfl⟩ := h
  rfl

instance : Std.LawfulEqOrd LocalKey := ⟨LocalKey.eq_of_compare⟩

instance : Std.TransOrd Location :=
  inferInstanceAs (Std.TransCmp (compareLex (compareOn Location.locale)
    (compareLex (compareOn Location.package) (compareOn Location.source))))

theorem Location.eq_of_compare {a b : Location} (h : compare a b = .eq) : a = b := by
  obtain ⟨l, p, s⟩ := a
  obtain ⟨m, q, t⟩ := b
  change (compare l m).then ((compare p q).then (compare s t)) = .eq at h
  simp only [Ordering.then_eq_eq, Std.LawfulEqOrd.compare_eq_iff_eq] at h
  obtain ⟨rfl, rfl, rfl⟩ := h
  rfl

instance : Std.LawfulEqOrd Location := ⟨Location.eq_of_compare⟩

/-! ## Growing in steps -/

/-- A step by which an index grows. -/
inductive Item where
  | entry (e : Entry)
  | form (base : LocalKey) (id : String)
  | file (l : Location) (file : File)
  | fault (f : Fault)

namespace Index

def addItem (index : Index) : Item → Index
  | .entry e => index.addEntry e
  | .form base id => index.addForm base id
  | .file l file => index.addFile l file
  | .fault f => index.addFault f

def grow (index : Index) (items : List Item) : Index := items.foldl addItem index

theorem grow_append (index : Index) (items more : List Item) :
    index.grow (items ++ more) = (index.grow items).grow more := List.foldl_append

theorem missingCatalogs_grow (index : Index) (items : List Item) :
    (index.grow items).missingCatalogs = index.missingCatalogs := by
  refine List.foldlRecOn (motive := fun i : Index => i.missingCatalogs = index.missingCatalogs)
    items _ rfl ?_
  intro other hother item _
  cases item <;> exact hother

/-- An index whose maps ascend, without plural messages that have no forms. -/
structure Ordered (index : Index) : Prop where
  entries : index.entries.Ascending
  pluralGroups : index.pluralGroups.Ascending
  forms : ∀ base, index.pluralGroups.get? base ≠ some []

theorem Ordered.empty : Ordered .empty where
  entries := SortedMap.ascending_empty
  pluralGroups := SortedMap.ascending_empty
  forms _ h := by cases h

variable {index : Index}

theorem get?_addForm (h : index.Ordered) (base other : LocalKey) (id : String) :
    (index.addForm base id).pluralGroups.get? other =
      if other = base then
        let forms := (index.pluralGroups.get? base).getD []
        some (if id ∈ forms then forms else forms ++ [id])
      else index.pluralGroups.get? other := by
  rw [addForm]
  by_cases heq : other = base
  · rw [heq, SortedMap.get?_alter_self h.pluralGroups, if_pos rfl]
  · rw [SortedMap.get?_alter_ne _ heq, if_neg heq]

theorem Ordered.addItem (h : index.Ordered) (item : Item) : (index.addItem item).Ordered := by
  cases item with
  | entry e => exact ⟨h.entries.insert _ _, h.pluralGroups, h.forms⟩
  | file l file => exact ⟨h.entries, h.pluralGroups, h.forms⟩
  | fault f => exact ⟨h.entries, h.pluralGroups, h.forms⟩
  | form base id =>
    refine ⟨h.entries, h.pluralGroups.alter _ _, ?_⟩
    intro other
    rw [Index.addItem, get?_addForm h]
    by_cases heq : other = base
    · rw [if_pos heq]
      by_cases hid : id ∈ (index.pluralGroups.get? base).getD []
      · have hne : (index.pluralGroups.get? base).getD [] ≠ [] := List.ne_nil_of_mem hid
        simpa [hid] using hne
      · simp [hid]
    · rw [if_neg heq]
      exact h.forms other

theorem Ordered.grow (h : index.Ordered) (items : List Item) : (index.grow items).Ordered :=
  List.foldlRecOn (motive := Ordered) items _ h fun _ hother item _ => hother.addItem item

/-! ## What is found after several steps -/

/-- The known forms of a plural message. -/
def formsOf (index : Index) (base : LocalKey) : List String :=
  (index.pluralGroups.get? base).getD []

theorem mem_formsOf_addForm (h : index.Ordered) (base other : LocalKey) (id form : String) :
    form ∈ (index.addForm base id).formsOf other ↔
      form ∈ index.formsOf other ∨ (other = base ∧ form = id) := by
  rw [formsOf, get?_addForm h]
  by_cases heq : other = base
  · rw [if_pos heq, heq, Option.getD_some, ← formsOf]
    by_cases hid : id ∈ index.formsOf base
    · have hsame : form = id → form ∈ index.formsOf base := fun h => h ▸ hid
      simpa [hid] using hsame
    · simp [hid]
  · rw [if_neg heq, ← formsOf]
    simp [heq]

theorem mem_formsOf_grow (h : index.Ordered) (items : List Item) (base : LocalKey) (id : String) :
    id ∈ (index.grow items).formsOf base ↔
      id ∈ index.formsOf base ∨ .form base id ∈ items := by
  induction items generalizing index with
  | nil => simp [grow]
  | cons item items ih =>
    have hstep : id ∈ (index.addItem item).formsOf base ↔
        id ∈ index.formsOf base ∨ .form base id = item := by
      cases item with
      | form other form =>
        rw [addItem, mem_formsOf_addForm h, Item.form.injEq]
      | entry e => exact (or_iff_left nofun).symm
      | file l file => exact (or_iff_left nofun).symm
      | fault f => exact (or_iff_left nofun).symm
    have hrest := ih (h.addItem item)
    rw [grow] at hrest ⊢
    rw [List.foldl_cons, hrest, hstep, List.mem_cons, or_assoc]

/-- What is found for a key was found before, or is one of the entries that were added. -/
theorem entry_of_grow {items : List Item} {k : LocalKey} {e : Entry}
    (h : (index.grow items).entries.get? k = some e) :
    index.entries.get? k = some e ∨ (.entry e ∈ items ∧ e.localKey = k) := by
  induction items generalizing index with
  | nil => exact .inl h
  | cons item items ih =>
    rcases ih h with hbefore | ⟨he, hk⟩
    · cases item with
      | entry new =>
        rw [addItem, addEntry, SortedMap.get?_insert] at hbefore
        split at hbefore
        · next hkey =>
          cases hbefore
          exact .inr ⟨List.mem_cons_self, hkey.symm⟩
        · exact .inl hbefore
      | form base id => exact .inl hbefore
      | file l file => exact .inl hbefore
      | fault f => exact .inl hbefore
    · exact .inr ⟨List.mem_cons_of_mem item he, hk⟩

theorem isSome_entry_grow {items : List Item} {k : LocalKey}
    (h : (index.entries.get? k).isSome = true ∨ ∃ e, .entry e ∈ items ∧ e.localKey = k) :
    ((index.grow items).entries.get? k).isSome = true := by
  induction items generalizing index with
  | nil => simpa [grow] using h
  | cons item items ih =>
    refine ih ?_
    rcases h with h | ⟨e, he, hk⟩
    · refine .inl ?_
      cases item with
      | entry new =>
        rw [addItem, addEntry, SortedMap.get?_insert]
        split
        · rfl
        · exact h
      | form base id => exact h
      | file l file => exact h
      | fault f => exact h
    · rcases List.mem_cons.1 he with rfl | he
      · refine .inl ?_
        rw [addItem, addEntry, SortedMap.get?_insert, if_pos hk.symm]
        rfl
      · exact .inr ⟨e, he, hk⟩

theorem file_of_grow {items : List Item} {l : Location} {file : File}
    (h : (index.grow items).files.get? l = some file) :
    index.files.get? l = some file ∨ .file l file ∈ items := by
  induction items generalizing index with
  | nil => exact .inl h
  | cons item items ih =>
    rcases ih h with hbefore | hfile
    · cases item with
      | file other new =>
        rw [addItem, addFile, SortedMap.get?_insert] at hbefore
        split at hbefore
        · next hkey =>
          cases hbefore
          exact .inr (hkey ▸ List.mem_cons_self)
        · exact .inl hbefore
      | form base id => exact .inl hbefore
      | entry e => exact .inl hbefore
      | fault f => exact .inl hbefore
    · exact .inr (List.mem_cons_of_mem item hfile)

theorem isSome_file_grow {items : List Item} {l : Location}
    (h : (index.files.get? l).isSome = true ∨ ∃ file, .file l file ∈ items) :
    ((index.grow items).files.get? l).isSome = true := by
  induction items generalizing index with
  | nil => simpa [grow] using h
  | cons item items ih =>
    refine ih ?_
    rcases h with h | ⟨file, hfile⟩
    · refine .inl ?_
      cases item with
      | file other new =>
        rw [addItem, addFile, SortedMap.get?_insert]
        split
        · rfl
        · exact h
      | form base id => exact h
      | entry e => exact h
      | fault f => exact h
    · rcases List.mem_cons.1 hfile with rfl | hfile
      · refine .inl ?_
        rw [addItem, addFile, SortedMap.get?_insert, if_pos rfl]
        rfl
      · exact .inr ⟨file, hfile⟩

end Index

/-! ## The items of a catalog -/

namespace LoadedCatalog

variable (c : LoadedCatalog) {filters : Filters} {pool : Pool}

def unitItems (merged : Dict String (List Texts)) (unit : String × CatalogUnit) : List Item :=
  match unit.2 with
  | .single u => [.entry (c.entry merged unit.1 u)]
  | .plural g => g.forms.entries.flatMap fun form =>
    [.form (c.localKey unit.1) (pluralFormId unit.1 form.1),
      .entry (c.entry merged (pluralFormId unit.1 form.1) form.2)]

def documentItems (pool : Pool) (d : Document) : List Item :=
  if d.isEmpty then []
  else
    match pool.merge c.name c.location.locale with
    | .ok merged => d.units.entries.flatMap (c.unitItems merged)
    | .error e =>
      .fault ⟨mergeFailed, c.context.insert "reason" e.message⟩ ::
        d.units.entries.flatMap (c.unitItems .empty)

/-- The steps by which an index grows by a catalog. -/
def items (filters : Filters) (pool : Pool) : List Item :=
  if filters.acceptsLocale c.location.locale then
    match c.document with
    | .ok d => .file c.location ⟨c.path, d.metadata⟩ :: c.documentItems pool d
    | .error e => [.fault ⟨e.message, c.context⟩, .file c.location ⟨c.path, {}⟩]
  else []

theorem addUnits_eq (pool : Pool) (d : Document) (index : Index) :
    index.addUnits pool c d = index.grow (c.documentItems pool d) := by
  have hforms (merged : Dict String (List Texts)) (base : String)
      (forms : List (Nat × TransUnit)) (index : Index) :
      forms.foldl (Index.addFormUnit c merged base) index =
        index.grow (forms.flatMap fun form =>
          [.form (c.localKey base) (pluralFormId base form.1),
            .entry (c.entry merged (pluralFormId base form.1) form.2)]) := by
    induction forms generalizing index with
    | nil => rfl
    | cons form forms ih =>
      rw [List.foldl_cons, ih, List.flatMap_cons, Index.grow_append]
      rfl
  have hunits (merged : Dict String (List Texts)) (units : List (String × CatalogUnit))
      (index : Index) :
      units.foldl (Index.addUnit c merged) index =
        index.grow (units.flatMap (c.unitItems merged)) := by
    induction units generalizing index with
    | nil => rfl
    | cons unit units ih =>
      obtain ⟨id, u⟩ := unit
      have hunit : index.addUnit c merged (id, u) = index.grow (c.unitItems merged (id, u)) := by
        cases u with
        | single u => rfl
        | plural g => exact hforms merged id g.forms.entries index
      rw [List.foldl_cons, ih, hunit, List.flatMap_cons, Index.grow_append]
  rw [Index.addUnits, documentItems]
  cases d.isEmpty with
  | true => rfl
  | false =>
    simp only [Bool.false_eq_true, if_false]
    cases pool.merge c.name c.location.locale with
    | ok merged => exact hunits merged d.units.entries index
    | error e => exact hunits .empty d.units.entries _

theorem addCatalog_eq (filters : Filters) (pool : Pool) (index : Index) :
    index.addCatalog filters pool c = index.grow (c.items filters pool) := by
  rw [Index.addCatalog, items]
  cases filters.acceptsLocale c.location.locale with
  | false => rfl
  | true =>
    simp only [if_true]
    cases c.document with
    | ok d => exact addUnits_eq c pool d _
    | error e => rfl

/-- Whether a catalog takes part in the index, with the document that was read. -/
def Indexed (filters : Filters) (d : Document) : Prop :=
  filters.acceptsLocale c.location.locale = true ∧ c.document = .ok d

theorem mem_items_of_document {d : Document} (h : c.Indexed filters d) {item : Item} :
    item ∈ c.documentItems pool d → item ∈ c.items filters pool := by
  obtain ⟨haccepts, hd⟩ := h
  intro hitem
  rw [items, if_pos haccepts, hd]
  exact List.mem_cons_of_mem _ hitem

theorem indexed_of_mem_items {item : Item} (h : item ∈ c.items filters pool) :
    (∃ f, item = .fault f) ∨ (∃ file : File, item = .file c.location file ∧ file.path = c.path) ∨
      ∃ d, c.Indexed filters d ∧ item ∈ c.documentItems pool d := by
  rw [items] at h
  by_cases haccepts : filters.acceptsLocale c.location.locale = true
  · rw [if_pos haccepts] at h
    cases hd : c.document with
    | ok d =>
      simp only [hd, List.mem_cons] at h
      rcases h with rfl | h
      · exact .inr (.inl ⟨_, rfl, rfl⟩)
      · exact .inr (.inr ⟨d, ⟨haccepts, hd⟩, h⟩)
    | error e =>
      simp only [hd, List.mem_cons, List.not_mem_nil, or_false] at h
      rcases h with rfl | rfl
      · exact .inl ⟨_, rfl⟩
      · exact .inr (.inl ⟨_, rfl, rfl⟩)
  · rw [if_neg haccepts] at h
    cases h

/-- The items of a document are those of its units, and perhaps a fault. -/
theorem mem_documentItems {d : Document} {item : Item} (h : item ∈ c.documentItems pool d) :
    (∃ f, item = .fault f) ∨
      ∃ merged, ∃ unit ∈ d.units.entries, item ∈ c.unitItems merged unit := by
  rw [documentItems] at h
  by_cases hempty : d.isEmpty = true
  · rw [if_pos hempty] at h
    cases h
  · rw [if_neg hempty] at h
    cases hmerge : pool.merge c.name c.location.locale with
    | ok merged =>
      simp only [hmerge] at h
      obtain ⟨unit, hunit, hitem⟩ := List.mem_flatMap.1 h
      exact .inr ⟨merged, unit, hunit, hitem⟩
    | error e =>
      simp only [hmerge] at h
      rcases List.mem_cons.1 h with rfl | h
      · exact .inl ⟨_, rfl⟩
      · obtain ⟨unit, hunit, hitem⟩ := List.mem_flatMap.1 h
        exact .inr ⟨.empty, unit, hunit, hitem⟩

theorem exists_merged (pool : Pool) {d : Document} {unit : String × CatalogUnit}
    (h : unit ∈ d.units.entries) :
    ∃ merged, ∀ item ∈ c.unitItems merged unit, item ∈ c.documentItems pool d := by
  have hempty : d.isEmpty = false := by
    rw [Document.isEmpty, Dict.isEmpty, List.isEmpty_eq_false_iff]
    exact List.ne_nil_of_mem h
  rw [documentItems, hempty]
  simp only [Bool.false_eq_true, if_false]
  cases pool.merge c.name c.location.locale with
  | ok merged => exact ⟨merged, fun item hitem => List.mem_flatMap.2 ⟨unit, h, hitem⟩⟩
  | error e =>
    refine ⟨.empty, fun item hitem => List.mem_cons_of_mem _ ?_⟩
    exact List.mem_flatMap.2 ⟨unit, h, hitem⟩

theorem entry_mem_unitItems {merged : Dict String (List Texts)} {unit : String × CatalogUnit}
    {e : Entry} :
    .entry e ∈ c.unitItems merged unit ↔
      ∃ id u, (id, u) ∈ Document.concreteUnitsOf unit.1 unit.2 ∧ e = c.entry merged id u := by
  obtain ⟨base, u⟩ := unit
  cases u with
  | single u =>
    simp only [unitItems, Document.concreteUnitsOf, List.mem_singleton, Item.entry.injEq,
      Prod.mk.injEq]
    constructor
    · rintro rfl
      exact ⟨base, u, ⟨rfl, rfl⟩, rfl⟩
    · rintro ⟨_, _, ⟨rfl, rfl⟩, rfl⟩
      rfl
  | plural g =>
    simp only [unitItems, Document.concreteUnitsOf, List.mem_flatMap, List.mem_cons, reduceCtorEq,
      Item.entry.injEq, List.not_mem_nil, or_false, false_or, List.mem_map, Prod.mk.injEq]
    constructor
    · rintro ⟨⟨n, v⟩, hv, rfl⟩
      exact ⟨_, _, ⟨(n, v), hv, rfl, rfl⟩, rfl⟩
    · rintro ⟨_, _, ⟨⟨n, v⟩, hv, rfl, rfl⟩, rfl⟩
      exact ⟨(n, v), hv, rfl⟩

theorem form_mem_unitItems {merged : Dict String (List Texts)} {unit : String × CatalogUnit}
    {base : LocalKey} {id : String} :
    .form base id ∈ c.unitItems merged unit ↔
      ∃ g n v, unit.2 = .plural g ∧ (n, v) ∈ g.forms.entries ∧ base = c.localKey unit.1 ∧
        id = pluralFormId unit.1 n := by
  obtain ⟨name, u⟩ := unit
  cases u with
  | single u => simp [unitItems]
  | plural g =>
    simp only [unitItems, List.mem_flatMap, List.mem_cons, Item.form.injEq, reduceCtorEq,
      List.not_mem_nil, or_false]
    constructor
    · rintro ⟨⟨n, v⟩, hv, rfl, rfl⟩
      exact ⟨g, n, v, rfl, hv, rfl, rfl⟩
    · rintro ⟨g', n, v, hg, hv, rfl, rfl⟩
      cases hg
      exact ⟨(n, v), hv, rfl, rfl⟩

end LoadedCatalog

/-! ## Looking up in the index of catalogs -/

section Lookup

variable (filters : Filters) (pool : Pool) (catalogs : List LoadedCatalog)

def allItems : List Item := catalogs.flatMap fun c => c.items filters pool

/-- An index is what its catalogs add, with the locations at which catalogs are missing. -/
theorem buildIndex_eq_grow :
    buildIndex filters pool catalogs =
      { Index.empty.grow (allItems filters pool catalogs) with
        missingCatalogs :=
          (Index.empty.grow (allItems filters pool catalogs)).absent filters } := by
  have hcatalogs (catalogs : List LoadedCatalog) (index : Index) :
      catalogs.foldl (Index.addCatalog filters pool) index =
        index.grow (allItems filters pool catalogs) := by
    induction catalogs generalizing index with
    | nil => rfl
    | cons c catalogs ih =>
      rw [List.foldl_cons, LoadedCatalog.addCatalog_eq, ih, allItems, allItems,
        List.flatMap_cons, Index.grow_append]
  have hmissing (ls : List Location) (index : Index) :
      ls.foldl Index.addMissing index =
        { index with missingCatalogs := index.missingCatalogs ++ ls } := by
    induction ls generalizing index with
    | nil => simp
    | cons l ls ih =>
      rw [List.foldl_cons, ih]
      simp [Index.addMissing]
  simp only [buildIndex, hcatalogs, hmissing, Index.missingCatalogs_grow]
  rfl

theorem buildIndex_eq :
    let index := Index.empty.grow (allItems filters pool catalogs)
    let built := buildIndex filters pool catalogs
    built.entries = index.entries ∧ built.pluralGroups = index.pluralGroups ∧
      built.files = index.files := by
  rw [buildIndex_eq_grow]
  exact ⟨rfl, rfl, rfl⟩

variable {filters pool catalogs}

theorem buildIndex_ordered : (buildIndex filters pool catalogs).Ordered := by
  obtain ⟨hentries, hgroups, -⟩ := buildIndex_eq filters pool catalogs
  have h := Index.Ordered.empty.grow (allItems filters pool catalogs)
  refine ⟨hentries ▸ h.entries, hgroups ▸ h.pluralGroups, ?_⟩
  rw [hgroups]
  exact h.forms

theorem mem_allItems {item : Item} :
    item ∈ allItems filters pool catalogs ↔ ∃ c ∈ catalogs, item ∈ c.items filters pool :=
  List.mem_flatMap

/-- An entry of the index is a unit of one of the catalogs, in whose file it is. -/
theorem buildIndex_entry? {locale : String} {key : Key} {e : Entry}
    (h : Index.entry? (buildIndex filters pool catalogs) locale key = some e) :
    ∃ c ∈ catalogs, ∃ d, c.Indexed filters d ∧ ∃ id u, (id, u) ∈ d.concreteUnits ∧
      c.localKey id = ⟨locale, key⟩ ∧ e.localKey = ⟨locale, key⟩ ∧ e.file = c.path := by
  obtain ⟨hentries, -, -⟩ := buildIndex_eq filters pool catalogs
  unfold Index.entry? at h
  rw [hentries] at h
  rcases Index.entry_of_grow h with hnone | ⟨hitem, hkey⟩
  · cases hnone
  · obtain ⟨c, hc, hitem⟩ := mem_allItems.1 hitem
    rcases c.indexed_of_mem_items hitem with ⟨f, hf⟩ | ⟨file, hfile, -⟩ | ⟨d, hd, hitem⟩
    · cases hf
    · cases hfile
    · rcases c.mem_documentItems hitem with ⟨f, hf⟩ | ⟨merged, unit, hunit, hitem⟩
      · cases hf
      · obtain ⟨id, u, hu, rfl⟩ := c.entry_mem_unitItems.1 hitem
        exact ⟨c, hc, d, hd, id, u, List.mem_flatMap.2 ⟨unit, hunit, hu⟩, hkey, hkey, rfl⟩

theorem buildIndex_entry_ne_none {c : LoadedCatalog} (hc : c ∈ catalogs) {d : Document}
    (hd : c.Indexed filters d) {id : String} {u : TransUnit} (hu : (id, u) ∈ d.concreteUnits) :
    Index.entry? (buildIndex filters pool catalogs) c.location.locale (c.localKey id).key ≠
      none := by
  obtain ⟨hentries, -, -⟩ := buildIndex_eq filters pool catalogs
  obtain ⟨unit, hunit, hu⟩ := List.mem_flatMap.1 hu
  obtain ⟨merged, hitems⟩ := c.exists_merged pool hunit
  unfold Index.entry?
  rw [hentries]
  refine Option.isSome_iff_ne_none.1 (Index.isSome_entry_grow (.inr ⟨c.entry merged id u, ?_, rfl⟩))
  have hitem := hitems _ (c.entry_mem_unitItems.2 ⟨id, u, hu, rfl⟩)
  exact mem_allItems.2 ⟨c, hc, c.mem_items_of_document hd hitem⟩

theorem mem_formsOf_buildIndex {base : LocalKey} {id : String} :
    id ∈ (buildIndex filters pool catalogs).formsOf base ↔
      ∃ c ∈ catalogs, ∃ d, c.Indexed filters d ∧ ∃ name g n v,
        (name, .plural g) ∈ d.units.entries ∧ (n, v) ∈ g.forms.entries ∧
        base = c.localKey name ∧ id = pluralFormId name n := by
  obtain ⟨-, hgroups, -⟩ := buildIndex_eq filters pool catalogs
  have hgrow := Index.mem_formsOf_grow .empty (allItems filters pool catalogs) base id
  have hbuilt : (buildIndex filters pool catalogs).formsOf base =
      (Index.empty.grow (allItems filters pool catalogs)).formsOf base := by
    rw [Index.formsOf, hgroups, Index.formsOf]
  rw [hbuilt, hgrow]
  constructor
  · rintro (hnone | hitem)
    · cases hnone
    · obtain ⟨c, hc, hitem⟩ := mem_allItems.1 hitem
      rcases c.indexed_of_mem_items hitem with ⟨f, hf⟩ | ⟨file, hfile, -⟩ | ⟨d, hd, hitem⟩
      · cases hf
      · cases hfile
      · rcases c.mem_documentItems hitem with ⟨f, hf⟩ | ⟨merged, unit, hunit, hitem⟩
        · cases hf
        · obtain ⟨name, u⟩ := unit
          obtain ⟨g, n, v, rfl, hv, hbase, hid⟩ := c.form_mem_unitItems.1 hitem
          exact ⟨c, hc, d, hd, name, g, n, v, hunit, hv, hbase, hid⟩
  · rintro ⟨c, hc, d, hd, name, g, n, v, hunit, hv, hbase, hid⟩
    obtain ⟨merged, hitems⟩ := c.exists_merged pool hunit
    have hitem := hitems _ (c.form_mem_unitItems.2 ⟨g, n, v, rfl, hv, hbase, hid⟩)
    exact .inr (mem_allItems.2 ⟨c, hc, c.mem_items_of_document hd hitem⟩)

theorem buildIndex_forms? {locale : String} {base : Key} {forms : List String}
    (h : (buildIndex filters pool catalogs).forms? locale base = some forms) :
    forms ≠ [] ∧ forms = (buildIndex filters pool catalogs).formsOf ⟨locale, base⟩ := by
  rw [Index.forms?] at h
  refine ⟨?_, by rw [Index.formsOf, h]; rfl⟩
  rintro rfl
  exact buildIndex_ordered.forms _ h

theorem buildIndex_file? {l : Location} {file : File}
    (h : (buildIndex filters pool catalogs).file? l = some file) :
    ∃ c ∈ catalogs, c.location = l ∧ c.path = file.path ∧
      filters.acceptsLocale l.locale = true := by
  obtain ⟨-, -, hfiles⟩ := buildIndex_eq filters pool catalogs
  rw [Index.file?, hfiles] at h
  rcases Index.file_of_grow h with hnone | hitem
  · cases hnone
  · obtain ⟨c, hc, hitem⟩ := mem_allItems.1 hitem
    have haccepts : filters.acceptsLocale c.location.locale = true := by
      by_cases haccepts : filters.acceptsLocale c.location.locale = true
      · exact haccepts
      · rw [LoadedCatalog.items, if_neg haccepts] at hitem
        cases hitem
    rcases c.indexed_of_mem_items hitem with ⟨f, hf⟩ | ⟨new, hnew, hpath⟩ | ⟨d, hd, hitem⟩
    · cases hf
    · cases hnew
      exact ⟨c, hc, rfl, hpath.symm, haccepts⟩
    · rcases c.mem_documentItems hitem with ⟨f, hf⟩ | ⟨merged, ⟨name, u⟩, -, hitem⟩
      · cases hf
      · cases u <;> simp [LoadedCatalog.unitItems] at hitem

theorem buildIndex_file_isSome {c : LoadedCatalog} (hc : c ∈ catalogs)
    (haccepts : filters.acceptsLocale c.location.locale = true) :
    ((buildIndex filters pool catalogs).file? c.location).isSome = true := by
  obtain ⟨-, -, hfiles⟩ := buildIndex_eq filters pool catalogs
  rw [Index.file?, hfiles]
  refine Index.isSome_file_grow (.inr ?_)
  have hitem : ∃ file, .file c.location file ∈ c.items filters pool := by
    rw [LoadedCatalog.items, if_pos haccepts]
    cases c.document with
    | ok d => exact ⟨_, List.mem_cons_self⟩
    | error e => exact ⟨⟨c.path, {}⟩, by simp⟩
  obtain ⟨file, hfile⟩ := hitem
  exact ⟨file, mem_allItems.2 ⟨c, hc, hfile⟩⟩

end Lookup

end Catalog

end TranslationAudit
