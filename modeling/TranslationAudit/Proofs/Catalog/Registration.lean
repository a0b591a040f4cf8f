import TranslationAudit.Proofs.Catalog.Union

/-! # The files in the index

An index has one file at a location, and the location of a path is not its own: `Foo.Bar.xlf` and
`Foo/Bar.xlf` are both the source `Foo.Bar`.

* `registered?`: the catalog whose file is found at a location, which is the last one there.
* `Index.paths`: the files that an index lists.
* `count_paths`: a catalog that takes part is listed once, unless another one at its location comes
  later.
-/

namespace TranslationAudit.Catalog

/-! ## What is found at a location -/

/-- The file of a catalog, with the metadata it was read with. -/
def LoadedCatalog.file (c : LoadedCatalog) : File :=
  ⟨c.path, (c.document.toOption.map Document.metadata).getD {}⟩

/-- The location and the file that a step adds. -/
def Item.file? : Item → Option (Location × File)
  | .file l f => some (l, f)
  | _ => none

namespace Index

theorem files_grow (index : Index) (items : List Item) :
    (index.grow items).files =
      (items.filterMap Item.file?).foldl (fun m e => m.insert e.1 e.2) index.files := by
  induction items generalizing index with
  | nil => rfl
  | cons item items ih =>
    have hgrow : index.grow (item :: items) = (index.addItem item).grow items := rfl
    rw [hgrow, ih]
    cases item <;> rfl

/-- The files that an index lists. -/
def paths (index : Index) : List String := index.files.values.map File.path

end Index

namespace LoadedCatalog

variable (c : LoadedCatalog) {filters : Filters} {pool : Pool}

/-- Whether the locale of a catalog is asked for. -/
def takesPart (filters : Filters) : Bool := filters.acceptsLocale c.location.locale

theorem filterMap_file_unitItems (merged : Dict String (List Texts)) (unit : String × CatalogUnit) :
    (c.unitItems merged unit).filterMap Item.file? = [] := by
  obtain ⟨id, u⟩ := unit
  rw [List.filterMap_eq_nil_iff]
  intro item hitem
  cases u with
  | single u =>
    rw [List.mem_singleton.1 hitem]
    rfl
  | plural g =>
    obtain ⟨form, -, hitem⟩ := List.mem_flatMap.1 hitem
    rcases List.mem_cons.1 hitem with rfl | hitem
    · rfl
    · rw [List.mem_singleton.1 hitem]
      rfl

theorem filterMap_file_items :
    (c.items filters pool).filterMap Item.file? =
      if c.takesPart filters then [(c.location, c.file)] else [] := by
  have hunits (d : Document) : (c.documentItems pool d).filterMap Item.file? = [] := by
    rw [documentItems_eq, List.filterMap_append, List.filterMap_flatMap]
    simp only [filterMap_file_unitItems]
    cases c.mergeFault? d <;> simp [Item.file?]
  rw [items, takesPart, file]
  cases filters.acceptsLocale c.location.locale with
  | false => rfl
  | true =>
    cases c.document with
    | error e => rfl
    | ok d =>
      have hfile : Item.file? (.file c.location ⟨c.path, d.metadata⟩) =
          some (c.location, ⟨c.path, d.metadata⟩) := rfl
      dsimp only
      rw [if_pos rfl, if_pos rfl, List.filterMap_cons_some hfile, hunits]
      rfl

end LoadedCatalog

theorem loadCatalogs_cons {read : String → Except Error Document} {filters : Filters}
    {path : String} {paths : List String} {l : Location} (h : filters.location? path = some l) :
    loadCatalogs read filters (path :: paths) =
      ⟨path, l, read path⟩ :: loadCatalogs read filters paths := by
  rw [loadCatalogs, List.filterMap_cons, h]
  rfl

section Registered

variable {filters : Filters} {pool : Pool} {catalogs front rest : List LoadedCatalog}
variable {c d : LoadedCatalog}

/-- The last catalog at a location that takes part. -/
def registered? (filters : Filters) (catalogs : List LoadedCatalog) (l : Location) :
    Option LoadedCatalog :=
  (catalogs.filter fun c => c.takesPart filters && c.location = l).getLast?

theorem files_buildIndex :
    (buildIndex filters pool catalogs).files =
      ((catalogs.filter (·.takesPart filters)).map fun c => (c.location, c.file)).foldl
        (fun m e => m.insert e.1 e.2) .empty := by
  have hitems : (allItems filters pool catalogs).filterMap Item.file? =
      (catalogs.filter (·.takesPart filters)).map fun c => (c.location, c.file) := by
    induction catalogs with
    | nil => rfl
    | cons c catalogs ih =>
      rw [allItems] at ih ⊢
      rw [List.flatMap_cons, List.filterMap_append, ih, c.filterMap_file_items, List.filter_cons]
      cases c.takesPart filters <;> rfl
  obtain ⟨-, -, hfiles⟩ := buildIndex_eq filters pool catalogs
  rw [hfiles, Index.files_grow, hitems]
  rfl

theorem ascending_files : (buildIndex filters pool catalogs).files.Ascending := by
  obtain ⟨-, -, hfiles⟩ := buildIndex_eq filters pool catalogs
  rw [hfiles]
  exact (Index.Sorted.empty.grow _).files

/-- The file at a location is that of the last catalog there. -/
theorem file?_buildIndex (l : Location) :
    (buildIndex filters pool catalogs).file? l =
      (registered? filters catalogs l).map LoadedCatalog.file := by
  rw [Index.file?, files_buildIndex, SortedMap.get?_foldl_insert, SortedMap.get?_empty,
    Option.or_none, List.filter_map, List.getLast?_map, List.filter_filter, registered?,
    Option.map_map]
  simp only [Function.comp_def, Bool.and_comm]

theorem of_registered? {l : Location} (h : registered? filters catalogs l = some c) :
    c ∈ catalogs ∧ c.takesPart filters = true ∧ c.location = l := by
  have hmem := List.mem_of_getLast? h
  simpa [and_assoc] using hmem

/-- A catalog that takes part is the last one at its location, unless one comes later. -/
theorem registered?_append (hc : c.takesPart filters = true)
    (hlast : ∀ d ∈ rest, d.location ≠ c.location) :
    registered? filters (front ++ c :: rest) c.location = some c := by
  have hrest : rest.filter (fun d => d.takesPart filters && d.location = c.location) = [] := by
    rw [List.filter_eq_nil_iff]
    intro d hd
    simp [hlast d hd]
  rw [registered?, List.filter_append, List.filter_cons_of_pos (by simp [hc]), hrest,
    List.getLast?_concat]

theorem registered?_append_mem (hc : c.takesPart filters = true) (hd : d ∈ rest)
    (hl : d.location = c.location) :
    ∃ e ∈ rest, registered? filters (front ++ c :: rest) c.location = some e := by
  have hpart : d.takesPart filters = true := by
    rw [LoadedCatalog.takesPart, hl]
    exact hc
  have hne : rest.filter (fun d => d.takesPart filters && d.location = c.location) ≠ [] :=
    List.ne_nil_of_mem (List.mem_filter.2 ⟨hd, by simp [hpart, hl]⟩)
  refine ⟨_, (List.mem_filter.1 (List.getLast_mem hne)).1, ?_⟩
  rw [registered?, List.filter_append, List.filter_cons_of_pos (by simp [hc]), List.getLast?_append,
    List.getLast?_cons, List.getLast?_eq_some_getLast hne]
  rfl

/-! ## What is listed -/

theorem mem_paths {path : String} :
    path ∈ (buildIndex filters pool catalogs).paths ↔
      ∃ l c, registered? filters catalogs l = some c ∧ c.path = path := by
  have hget (l : Location) (file : File) :
      (l, file) ∈ (buildIndex filters pool catalogs).files.entries ↔
        (registered? filters catalogs l).map LoadedCatalog.file = some file := by
    rw [← SortedMap.get?_eq_some_iff ascending_files, ← Index.file?, file?_buildIndex]
  simp only [Index.paths, SortedMap.values, List.map_map, List.mem_map, Function.comp_apply,
    Prod.exists, hget, Option.map_eq_some_iff]
  constructor
  · rintro ⟨l, _, ⟨c, hc, rfl⟩, rfl⟩
    exact ⟨l, c, hc, rfl⟩
  · rintro ⟨l, c, hc, rfl⟩
    exact ⟨l, c.file, ⟨c, hc, rfl⟩, rfl⟩

theorem eq_of_path (hpaths : (catalogs.map LoadedCatalog.path).Nodup) (hc : c ∈ catalogs)
    (hd : d ∈ catalogs) (h : c.path = d.path) : c = d :=
  List.inj_on_of_nodup_map hpaths hc hd h

/-- No file is listed twice. -/
theorem nodup_paths (hpaths : (catalogs.map LoadedCatalog.path).Nodup) :
    (buildIndex filters pool catalogs).paths.Nodup := by
  have hascending : (buildIndex filters pool catalogs).files.Ascending := ascending_files
  have hentries := List.Nodup.of_map Prod.fst hascending.nodup_keys
  rw [Index.paths, SortedMap.values, List.map_map]
  refine List.Nodup.map_on ?_ hentries
  rintro ⟨l, file⟩ hfile ⟨l', file'⟩ hfile' hpath
  rw [← SortedMap.get?_eq_some_iff hascending, ← Index.file?, file?_buildIndex] at hfile hfile'
  obtain ⟨c, hc, rfl⟩ := Option.map_eq_some_iff.1 hfile
  obtain ⟨d, hd, rfl⟩ := Option.map_eq_some_iff.1 hfile'
  obtain ⟨hmem, -, rfl⟩ := of_registered? hc
  obtain ⟨hmem', -, rfl⟩ := of_registered? hd
  rw [eq_of_path hpaths hmem hmem' hpath]

/-- A catalog that takes part is listed exactly if none comes later at its location. -/
theorem path_mem_paths (hpaths : ((front ++ c :: rest).map LoadedCatalog.path).Nodup)
    (hc : c.takesPart filters = true) :
    c.path ∈ (buildIndex filters pool (front ++ c :: rest)).paths ↔
      ∀ d ∈ rest, d.location ≠ c.location := by
  rw [mem_paths]
  constructor
  · rintro ⟨l, e, he, hpath⟩ d hd hl
    obtain ⟨hmem, -, rfl⟩ := of_registered? he
    obtain rfl := eq_of_path hpaths hmem (List.mem_append_right front List.mem_cons_self) hpath
    obtain ⟨e', he', hlast⟩ : ∃ e' ∈ rest,
        registered? filters (front ++ e :: rest) e.location = some e' :=
      registered?_append_mem hc hd hl
    obtain rfl : e = e' := Option.some.inj (he.symm.trans hlast)
    rw [List.map_append, List.map_cons] at hpaths
    exact (List.nodup_cons.1 hpaths.of_append_right).1 (List.mem_map_of_mem he')
  · intro hlast
    exact ⟨c.location, c, registered?_append hc hlast, rfl⟩

/-- The catalogs that take part are all listed exactly if no two of them are at one location. -/
theorem forall_path_mem_paths (pool : Pool)
    (hpaths : (catalogs.map LoadedCatalog.path).Nodup) :
    (∀ c ∈ catalogs, c.takesPart filters = true →
      c.path ∈ (buildIndex filters pool catalogs).paths) ↔
      ((catalogs.filter (·.takesPart filters)).map LoadedCatalog.location).Nodup := by
  rw [List.Nodup, List.pairwise_map, List.pairwise_filter]
  constructor
  · intro hlisted
    rw [List.pairwise_iff_forall_sublist]
    intro c d hsub hc _ hl
    obtain ⟨start, tail, rfl, hmem, hd⟩ := List.cons_sublist_iff.1 hsub
    obtain ⟨front, middle, rfl⟩ := List.append_of_mem hmem
    have hlist := hlisted c (List.mem_append_left tail hmem) hc
    rw [List.append_assoc, List.cons_append] at hpaths hlist
    rw [path_mem_paths hpaths hc] at hlist
    exact hlist d (List.mem_append_right middle (List.singleton_sublist.1 hd)) hl.symm
  · intro hapart c hmem hc
    obtain ⟨front, rest, rfl⟩ := List.append_of_mem hmem
    rw [path_mem_paths hpaths hc]
    intro d hd hl
    have hpart : d.takesPart filters = true := by
      rw [LoadedCatalog.takesPart, hl]
      exact hc
    exact (List.pairwise_cons.1 (List.pairwise_append.1 hapart).2.1).1 d hd hc hpart hl.symm

end Registered

/-! ## How often a file is listed -/

/-- A catalog that takes part is listed once, unless a later one is at its location, which takes its
place. So all of them are listed exactly if they are at different locations. -/
theorem count_paths (filters : Filters) (pool : Pool) (catalogs : List LoadedCatalog)
    (hpaths : (catalogs.map LoadedCatalog.path).Nodup) :
    (∀ path ∈ (buildIndex filters pool catalogs).paths,
      ∃ c ∈ catalogs, c.takesPart filters = true ∧ c.path = path) ∧
    (∀ front c rest, catalogs = front ++ c :: rest → c.takesPart filters = true →
      (buildIndex filters pool catalogs).paths.count c.path =
        if ∃ d ∈ rest, d.location = c.location then 0 else 1) ∧
    ((∀ c ∈ catalogs, c.takesPart filters = true →
        (buildIndex filters pool catalogs).paths.count c.path = 1) ↔
      ((catalogs.filter (·.takesPart filters)).map LoadedCatalog.location).Nodup) := by
  have hnodup : (buildIndex filters pool catalogs).paths.Nodup := nodup_paths hpaths
  refine ⟨?_, ?_, ?_⟩
  · intro path hpath
    obtain ⟨l, c, hc, rfl⟩ := mem_paths.1 hpath
    obtain ⟨hmem, hpart, -⟩ := of_registered? hc
    exact ⟨c, hmem, hpart, rfl⟩
  · rintro front c rest rfl hc
    rw [hnodup.count]
    by_cases hlater : ∃ d ∈ rest, d.location = c.location
    · have hunlisted : c.path ∉ (buildIndex filters pool (front ++ c :: rest)).paths := by
        obtain ⟨d, hd, hl⟩ := hlater
        exact fun hlist => (path_mem_paths hpaths hc).1 hlist d hd hl
      rw [if_pos hlater, if_neg hunlisted]
    · have hlast : ∀ d ∈ rest, d.location ≠ c.location := fun d hd hl => hlater ⟨d, hd, hl⟩
      rw [if_neg hlater, if_pos ((path_mem_paths hpaths hc).2 hlast)]
  · rw [← forall_path_mem_paths pool hpaths]
    refine forall₃_congr fun c _ _ => ?_
    rw [hnodup.count, ite_eq_left_iff, imp_iff_not Nat.zero_ne_one, not_not]

theorem count_paths_dotted :
    let nested := "/p/DistributionPackages/Acme.Site/Resources/Private/Translations/de/Foo/Bar.xlf"
    let dotted := "/p/DistributionPackages/Acme.Site/Resources/Private/Translations/de/Foo.Bar.xlf"
    let catalogs := loadCatalogs (fun path => Document.parse path "<x><file><body/></file></x>") {}
      [nested, dotted]
    let listed := (buildIndex {} (.ofCatalogs catalogs []) catalogs).paths
    catalogs.map LoadedCatalog.path = [nested, dotted] ∧
      catalogs.map LoadedCatalog.location =
        [⟨"de", "Acme.Site", "Foo.Bar"⟩, ⟨"de", "Acme.Site", "Foo.Bar"⟩] ∧
      listed.count nested = 0 ∧ listed.count dotted = 1 := by
  intro nested dotted catalogs listed
  let location : Location := ⟨"de", "Acme.Site", "Foo.Bar"⟩
  let read := fun path => Document.parse path "<x><file><body/></file></x>"
  have hnested : Filters.location? {} nested = some location := by decide
  have hdotted : Filters.location? {} dotted = some location := by decide
  have hcatalogs : catalogs =
      [⟨nested, location, read nested⟩, ⟨dotted, location, read dotted⟩] :=
    (loadCatalogs_cons hnested).trans (congrArg _ (loadCatalogs_cons hdotted))
  have hpaths : catalogs.map LoadedCatalog.path = [nested, dotted] := by rw [hcatalogs]; rfl
  have hdistinct : (catalogs.map LoadedCatalog.path).Nodup := by
    rw [hpaths]
    decide
  obtain ⟨-, hcount, -⟩ := count_paths {} (.ofCatalogs catalogs []) catalogs hdistinct
  refine ⟨hpaths, by rw [hcatalogs]; rfl, ?_, ?_⟩
  · rw [hcount [] _ _ hcatalogs rfl]
    exact if_pos ⟨_, List.mem_singleton_self _, rfl⟩
  · rw [hcount [_] _ _ hcatalogs rfl]
    exact if_neg fun ⟨_, hnone, _⟩ => nomatch hnone

end TranslationAudit.Catalog
