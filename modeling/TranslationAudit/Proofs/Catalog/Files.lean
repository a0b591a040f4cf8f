import TranslationAudit.Catalog.Writer
import TranslationAudit.Proofs.Catalog.Format
import TranslationAudit.Proofs.Catalog.Index
import TranslationAudit.Proofs.Catalog.Reread

/-! # Catalogs in files

* `Holds`: files with texts that are read as catalogs.
* `indexOf`: the index of the catalogs in some files; `indexOf_entry?`, `mem_formsOf_indexOf` and
  `indexOf_file?` tell what is found in it by what the files hold.
* `revise`: a change of one file, of which additions and deletions are cases; `revise_cases` tells
  what it does to them.
-/

namespace TranslationAudit.Catalog

variable {t t' : FileTree} {path other text : String} {d d' : Document}

/-! ## Files with catalogs -/

theorem Document.parse_path (h : Document.parse path text = .ok d) (other : String) :
    Document.parse other text = .ok d := by
  unfold parse at h ⊢
  split at h
  · cases h
  · next hblank =>
    rw [if_neg hblank]
    split at h
    · cases h
    · split at h
      · cases h
      · cases h
        rfl

theorem Document.sound_empty : ({} : Document).Sound ∧ ({} : Document).AsRead := by
  refine ⟨⟨⟨⟨?_, ?_⟩, ?_⟩, ?_, ?_, ?_⟩, [], trivial, rfl, rfl, by simp⟩ <;> simp [Dict.empty]

/-- A catalog that was loaded can be written, if all names in its file are names. -/
theorem Document.sound_of_load (h : Document.load t path = .ok d)
    (hnamed : ∀ text, t.read path = .ok text → Document.NamesIn text) : d.Sound ∧ d.AsRead := by
  unfold load at h
  split at h
  · next text hread => exact Document.parse_sound h (hnamed text hread)
  · cases h
    exact sound_empty
  · cases h

/-- Files with a text that is read as a catalog, in which all names are names. -/
def Holds (t : FileTree) (path : String) (d : Document) : Prop :=
  ∃ text, t.read path = .ok text ∧ Document.parse path text = .ok d ∧ Document.NamesIn text

theorem exists_holds (h : (t.read path).toOption.any Document.isReadable = true) :
    ∃ d, Holds t path d := by
  obtain ⟨text, hread, htext⟩ := (Option.any_eq_true _ _).1 h
  obtain ⟨d, hparse, hnamed⟩ := Document.exists_parse path htext
  exact ⟨d, text, eq_ok_of_toOption hread, hparse, hnamed⟩

namespace Holds

theorem load (h : Holds t path d) : Document.load t path = .ok d := by
  obtain ⟨text, hread, hparse, -⟩ := h
  rw [Document.load, hread]
  exact hparse

theorem isFile (h : Holds t path d) : t.isFile path = true := by
  obtain ⟨text, hread, -⟩ := h
  unfold FileTree.read at hread
  unfold FileTree.isFile
  cases hfind : t.find path with
  | error e =>
    rw [hfind] at hread
    cases hread
  | ok n =>
    rw [hfind] at hread
    cases n <;> first | rfl | cases hread

theorem sound (h : Holds t path d) : d.Sound ∧ d.AsRead := by
  obtain ⟨text, -, hparse, hnamed⟩ := h
  exact Document.parse_sound hparse hnamed

theorem keyed (h : Holds t path d) : d.Keyed := Document.keyed_of_load h.load

theorem eq_of_load (h : Holds t path d) (hload : Document.load t path = .ok d') : d = d' := by
  rw [h.load] at hload
  cases hload
  rfl

theorem unique (h : Holds t path d) (h' : Holds t path d') : d = d' := h.eq_of_load h'.load

theorem of_place (h : Holds t path d) (hplace : t.place other = t.place path) :
    Holds t other d := by
  obtain ⟨text, hread, hparse, hnamed⟩ := h
  rw [← FileTree.read_of_place hplace] at hread
  exact ⟨text, hread, Document.parse_path hparse other, hnamed⟩

/-- A changed catalog that was written is read with its single units and forms. -/
theorem of_render {layout : Layout} {header : Header} (h : Holds t path d) (hedited : d.Edited d')
    (hrepeats : Document.KeepsRepeats layout d d')
    (hread : t'.read other = .ok (render layout d' header)) :
    ∃ d'', Holds t' other d'' ∧ (∀ id, d''.HasSingle id ↔ d'.HasSingle id) ∧
      (∀ base n, d''.HasForm base n ↔ d'.HasForm base n) ∧ ∀ id, d''.Repeats id → d.Repeats id := by
  obtain ⟨d'', hparse, hrest⟩ := hedited.reread h.sound.2 hrepeats other header
  have hnamed := Document.namesIn_render hedited.sound layout header
  exact ⟨d'', ⟨_, hread, hparse, hnamed⟩, hrest⟩

/-- What a file holds after another one was written: what it held, unless both are one file. -/
theorem save {content : String} (h : Holds t path d)
    (hother : (∃ old, t.read other = .ok old) ∨ Path.Direct other)
    (hsave : t.save other content = .ok t') :
    t'.place path = t.place path ∧
      (Holds t' path d ∨
        (t.place other = t.place path ∧ t'.read path = .ok content)) := by
  obtain ⟨text, hread, hparse, hnamed⟩ := h
  obtain ⟨hplace, hread'⟩ := FileTree.read_save_other hread hother hsave
  refine ⟨hplace, ?_⟩
  exact hread'.imp_left fun hread' => ⟨text, hread', hparse, hnamed⟩

end Holds

/-! ## The index of files -/

/-- The index of the catalogs in files. -/
def indexOf (filters : Filters) (fallbacks paths : List String) (t : FileTree) : Index :=
  let loaded := loadCatalogs (Document.load t) filters paths
  buildIndex filters (.ofCatalogs loaded fallbacks) loaded

/-- Files that take part in an index, with their locations. -/
structure Listed (filters : Filters) (paths : List String) (path : String) (l : Location) :
    Prop where
  mem : path ∈ paths
  location : filters.location? path = some l
  accepted : filters.acceptsLocale l.locale = true

section IndexOf

variable {filters : Filters} {fallbacks paths : List String} {locale : String}

theorem Listed.mono {paths' : List String} {l : Location} (h : Listed filters paths path l)
    (hpaths : ∀ p ∈ paths, p ∈ paths') : Listed filters paths' path l :=
  ⟨hpaths path h.mem, h.location, h.accepted⟩

theorem mem_loadCatalogs {read : String → Except Error Document} {c : LoadedCatalog} :
    c ∈ loadCatalogs read filters paths ↔
      c.path ∈ paths ∧ filters.location? c.path = some c.location ∧ c.document = read c.path := by
  rw [loadCatalogs, List.mem_filterMap]
  constructor
  · rintro ⟨path, hpath, hc⟩
    obtain ⟨l, hl, rfl⟩ := Option.map_eq_some_iff.1 hc
    exact ⟨hpath, hl, rfl⟩
  · rintro ⟨hpath, hl, hd⟩
    refine ⟨c.path, hpath, ?_⟩
    rw [hl, ← hd]
    rfl

theorem Listed.indexed {l : Location} (h : Listed filters paths path l)
    (hload : Document.load t path = .ok d) :
    ∃ c ∈ loadCatalogs (Document.load t) filters paths, c.location = l ∧ c.path = path ∧
      c.Indexed filters d := by
  refine ⟨⟨path, l, Document.load t path⟩, ?_, rfl, rfl, h.accepted, hload⟩
  exact mem_loadCatalogs.2 ⟨h.mem, h.location, rfl⟩

theorem listed_of_indexed {c : LoadedCatalog}
    (hc : c ∈ loadCatalogs (Document.load t) filters paths) (hd : c.Indexed filters d) :
    Listed filters paths c.path c.location ∧ Document.load t c.path = .ok d := by
  obtain ⟨hpath, hl, hdocument⟩ := mem_loadCatalogs.1 hc
  obtain ⟨haccepted, hd⟩ := hd
  exact ⟨⟨hpath, hl, haccepted⟩, by rw [← hdocument, hd]⟩

/-- An entry is a unit of a file at its location. -/
theorem indexOf_entry? {key : Key} {e : Entry}
    (h : Index.entry? (indexOf filters fallbacks paths t) locale key = some e) :
    e.localKey = ⟨locale, key⟩ ∧
      Listed filters paths e.file ⟨locale, key.package, key.source⟩ ∧
      ∃ d, Document.load t e.file = .ok d ∧ d.HasUnit key.id := by
  obtain ⟨c, hc, d, hd, id, u, hu, hlocal, hkey, hfile⟩ := buildIndex_entry? h
  obtain ⟨hlisted, hload⟩ := listed_of_indexed hc hd
  rw [← hfile] at hlisted hload
  cases hlocal
  exact ⟨hkey, hlisted, d, hload, u, hu⟩

theorem indexOf_entry_ne_none (fallbacks : List String) {key : Key}
    (h : Listed filters paths path ⟨locale, key.package, key.source⟩)
    (hload : Document.load t path = .ok d) (hunit : d.HasUnit key.id) :
    Index.entry? (indexOf filters fallbacks paths t) locale key ≠ none := by
  obtain ⟨c, hc, hlocation, -, hd⟩ := h.indexed hload
  obtain ⟨u, hu⟩ := hunit
  have hentry : Index.entry? (indexOf filters fallbacks paths t) c.location.locale
      (c.localKey key.id).key ≠ none := buildIndex_entry_ne_none hc hd hu
  unfold LoadedCatalog.localKey at hentry
  rw [hlocation] at hentry
  exact hentry

/-- The forms of a plural message are those of the groups in the files at its location. -/
theorem mem_formsOf_indexOf (fallbacks : List String) {base : Key} {id : String} :
    id ∈ (indexOf filters fallbacks paths t).formsOf ⟨locale, base⟩ ↔
      ∃ path d n, Listed filters paths path ⟨locale, base.package, base.source⟩ ∧
        Document.load t path = .ok d ∧ d.HasForm base.id n ∧ id = pluralFormId base.id n := by
  unfold indexOf
  rw [mem_formsOf_buildIndex]
  constructor
  · rintro ⟨c, hc, d, hd, name, g, n, v, hg, hv, hbase, rfl⟩
    obtain ⟨hlisted, hload⟩ := listed_of_indexed hc hd
    cases hbase
    refine ⟨c.path, d, n, hlisted, hload, ?_, rfl⟩
    exact (Document.keyed_of_load hload).hasForm_iff.2 ⟨g, v, hg, hv⟩
  · rintro ⟨path, d, n, hlisted, hload, hform, rfl⟩
    obtain ⟨c, hc, hlocation, -, hd⟩ := hlisted.indexed hload
    obtain ⟨g, v, hg, hv⟩ := (Document.keyed_of_load hload).hasForm_iff.1 hform
    refine ⟨c, hc, d, hd, base.id, g, n, v, hg, hv, ?_, rfl⟩
    unfold LoadedCatalog.localKey
    rw [hlocation]

theorem indexOf_file? {l : Location} {file : File}
    (h : (indexOf filters fallbacks paths t).file? l = some file) :
    Listed filters paths file.path l := by
  obtain ⟨c, hc, rfl, hpath, haccepted⟩ := buildIndex_file? h
  obtain ⟨hmem, hlocation, -⟩ := mem_loadCatalogs.1 hc
  rw [hpath] at hmem hlocation
  exact ⟨hmem, hlocation, haccepted⟩

theorem mem_locales_of_file? {index : Index} {l : Location} (h : (index.file? l).isSome = true) :
    l.locale ∈ index.locales := by
  obtain ⟨file, hfile⟩ := Option.isSome_iff_exists.1 h
  refine mem_ascending.2 (List.mem_append_left _ ?_)
  have hl := List.mem_map_of_mem (f := Prod.fst) (SortedMap.mem_of_get? hfile)
  exact List.mem_map_of_mem (f := Location.locale) hl

end IndexOf

/-! ## Changing a file -/

def revise (settings : WriterSettings) (o : WriteOutcome) (path : String)
    (header : Document → Header) (change : Document → Document × Bool) : WriteOutcome :=
  match Document.load o.tree path with
  | .error e => o.fail e
  | .ok d => if (change d).2 then o.finish settings path (change d).1 (header d) else o

theorem writeTo_eq_revise (settings : WriterSettings) (o : WriteOutcome) (path : String)
    (l : Location) (additions : List Addition) :
    writeTo settings o path l additions =
      revise settings o path (fun d => .resolve d.metadata l.package l.locale) fun d =>
        d.insertAll settings
          ((Header.resolve d.metadata l.package l.locale).writesTarget l.locale) additions :=
  rfl

theorem deleteFrom_eq_revise (settings : WriterSettings) (o : WriteOutcome) (path : String)
    (first : Entry) (ids : List String) :
    deleteFrom settings o path first ids =
      revise settings o path (fun d => .resolve d.metadata first.key.package first.locale)
        fun d => d.removeAll ids :=
  rfl

section Revise

variable {settings : WriterSettings} {o : WriteOutcome} {header : Document → Header}
variable {change : Document → Document × Bool}

@[simp] theorem tree_record (o : WriteOutcome) (path : String) : (o.record path).tree = o.tree := by
  unfold WriteOutcome.record
  split <;> rfl

@[simp] theorem failures_record (o : WriteOutcome) (path : String) :
    (o.record path).failures = o.failures := by
  unfold WriteOutcome.record
  split <;> rfl

/-- A change fails and leaves the files as they are, or has nothing to write, or writes. -/
theorem revise_cases (hdry : settings.dryRun = false) :
    (∃ e, revise settings o path header change = o.fail e) ∨
    ∃ d, Document.load o.tree path = .ok d ∧
      (((change d).2 = false ∧ revise settings o path header change = o) ∨
        (o.tree.save path (render settings.layout (change d).1 (header d)) =
            .ok (revise settings o path header change).tree ∧
          (revise settings o path header change).failures = o.failures)) := by
  unfold revise
  cases hload : Document.load o.tree path with
  | error e => exact .inl ⟨e, rfl⟩
  | ok d =>
    simp only
    cases hchanged : (change d).2 with
    | false => exact .inr ⟨d, rfl, .inl ⟨hchanged, rfl⟩⟩
    | true =>
      simp only [if_true]
      unfold WriteOutcome.finish
      rw [hdry]
      simp only [Bool.false_eq_true, if_false]
      cases hstore : store o.tree path (render settings.layout (change d).1 (header d)) with
      | error e => exact .inl ⟨e, rfl⟩
      | ok t =>
        refine .inr ⟨d, rfl, .inr ⟨?_, ?_⟩⟩
        · rw [tree_record]
          exact save_of_store hstore
        · rw [failures_record]

theorem failures_of_revise (hdry : settings.dryRun = false)
    (h : (revise settings o path header change).failures = []) : o.failures = [] := by
  rcases revise_cases hdry with ⟨e, hfail⟩ | ⟨d, -, ⟨-, hsame⟩ | ⟨-, hfailures⟩⟩
  · rw [hfail] at h
    simp [WriteOutcome.fail] at h
  · rw [hsame] at h
    exact h
  · rw [hfailures] at h
    exact h

/-- Steps that keep all failures leave none only if there were none before. -/
theorem failures_of_foldl {α : Type} {step : WriteOutcome → α → WriteOutcome}
    (hstep : ∀ o a, (step o a).failures = [] → o.failures = []) (as : List α) {o : WriteOutcome}
    (h : (as.foldl step o).failures = []) : o.failures = [] := by
  induction as generalizing o with
  | nil => exact h
  | cons a as ih => exact hstep o a (ih h)

end Revise

end TranslationAudit.Catalog
