import TranslationAudit.Proofs.Catalog.Files
import TranslationAudit.Reconcile

/-! # What is missing

* `mem_missing_iff`: a comparison finds what it finds for each reference and locale.
* `missing_plural_iff`, `missing_plain_iff`: what is missing of a message, by what the catalogs in
  files have of it.
* `treeOf`, `message`: files and references for runs on one catalog.
-/

namespace TranslationAudit

open Catalog (Document Filters Index Listed indexOf)

def Scope.compared (s : Scope) (index : Index) : List String :=
  if s.locales.isEmpty then index.locales else s.locales

theorem mem_missing_iff {references : ReferenceIndex} {index : Index} {scope : Scope}
    {m : MissingTranslation} :
    m ∈ (reconcile references index scope).missing ↔
      ∃ r ∈ references.references, scope.accepts r.key = true ∧
        ∃ locale ∈ scope.compared index, m ∈ (reconcileReference index locale r).missing := by
  unfold reconcile
  simp only [List.mem_flatMap, List.mem_filter, List.mem_map, Scope.compared]
  constructor
  · rintro ⟨_, ⟨r, ⟨hr, haccepts⟩, locale, hlocale, rfl⟩, hm⟩
    exact ⟨r, hr, haccepts, locale, hlocale, hm⟩
  · rintro ⟨r, hr, haccepts, locale, hlocale, hm⟩
    exact ⟨_, ⟨r, ⟨hr, haccepts⟩, locale, hlocale, rfl⟩, hm⟩

theorem reference_of_missing {index : Index} {locale : String} {r : Reference}
    {m : MissingTranslation} (h : m ∈ (reconcileReference index locale r).missing) :
    m.locale = locale ∧ m.reference = r := by
  unfold reconcileReference at h
  split at h
  · obtain ⟨n, -, rfl⟩ := List.mem_map.1 h
    exact ⟨rfl, rfl⟩
  · unfold reconcilePlain at h
    split at h
    · cases h
    · split at h
      · cases h
      · rw [List.mem_singleton.1 h]
        exact ⟨rfl, rfl⟩

section Files

variable {filters : Filters} {fallbacks paths : List String} {t : FileTree} {locale : String}
variable {r : Reference} {m : MissingTranslation}

/-- The catalogs of a message in a locale. -/
def CatalogOf (filters : Filters) (paths : List String) (t : FileTree) (locale : String) (k : Key)
    (d : Document) : Prop :=
  ∃ path, Listed filters paths path ⟨locale, k.package, k.source⟩ ∧ Document.load t path = .ok d

/-- A form is missing if no group has it. -/
theorem missing_plural_iff (hplural : r.isPlural = true) :
    m ∈ (reconcileReference (indexOf filters fallbacks paths t) locale r).missing ↔
      ∃ n ∈ Key.expectedForms, m = ⟨locale, r.key.pluralForm n, r⟩ ∧
        ∀ d, CatalogOf filters paths t locale r.key d → ¬ d.HasForm r.key.id n := by
  have hpresent (n : Nat) :
      n ∈ (((indexOf filters fallbacks paths t).forms? locale r.key).getD []).filterMap
        (fun id => (splitPluralForm id).map Prod.snd) ↔
      ∃ d, CatalogOf filters paths t locale r.key d ∧ d.HasForm r.key.id n := by
    change n ∈ ((indexOf filters fallbacks paths t).formsOf ⟨locale, r.key⟩).filterMap _ ↔ _
    rw [List.mem_filterMap]
    constructor
    · rintro ⟨id, hid, hsplit⟩
      obtain ⟨path, d, k, hlisted, hload, hform, rfl⟩ :=
        (Catalog.mem_formsOf_indexOf fallbacks).1 hid
      rw [(Document.keyed_of_load hload).split_form hform] at hsplit
      cases hsplit
      exact ⟨d, ⟨path, hlisted, hload⟩, hform⟩
    · rintro ⟨d, ⟨path, hlisted, hload⟩, hform⟩
      refine ⟨pluralFormId r.key.id n, ?_, ?_⟩
      · exact (Catalog.mem_formsOf_indexOf fallbacks).2 ⟨path, d, n, hlisted, hload, hform, rfl⟩
      · rw [(Document.keyed_of_load hload).split_form hform]
        rfl
  unfold reconcileReference
  rw [if_pos hplural]
  unfold reconcilePlural
  simp only [List.mem_map, List.mem_filter, Bool.not_eq_true', Bool.eq_false_iff, ne_eq,
    List.contains_iff_mem, hpresent, not_exists, not_and]
  constructor
  · rintro ⟨n, ⟨hn, hnone⟩, rfl⟩
    exact ⟨n, hn, rfl, hnone⟩
  · rintro ⟨n, hn, rfl, hnone⟩
    exact ⟨n, ⟨hn, hnone⟩, rfl⟩

/-- A message that is not plural is missing if there is no unit and no form of it. -/
theorem missing_plain_iff (hplain : r.isPlural = false) :
    m ∈ (reconcileReference (indexOf filters fallbacks paths t) locale r).missing ↔
      m = ⟨locale, r.key, r⟩ ∧ ∀ d, CatalogOf filters paths t locale r.key d →
        ¬ d.HasUnit r.key.id ∧ ∀ n, ¬ d.HasForm r.key.id n := by
  unfold reconcileReference
  rw [if_neg (by simp [hplain])]
  unfold reconcilePlain
  cases hentry : Index.entry? (indexOf filters fallbacks paths t) locale r.key with
  | some e =>
    obtain ⟨-, hlisted, d, hload, hunit⟩ := Catalog.indexOf_entry? hentry
    simp only [List.not_mem_nil, false_iff]
    rintro ⟨-, hnone⟩
    exact (hnone d ⟨e.file, hlisted, hload⟩).1 hunit
  | none =>
    have hunits (d : Document) (hd : CatalogOf filters paths t locale r.key d) :
        ¬ d.HasUnit r.key.id := by
      intro hunit
      obtain ⟨path, hlisted, hload⟩ := hd
      exact Catalog.indexOf_entry_ne_none fallbacks hlisted hload hunit hentry
    cases hforms : (indexOf filters fallbacks paths t).forms? locale r.key with
    | some forms =>
      obtain ⟨hne, hall⟩ := Catalog.buildIndex_forms? hforms
      obtain ⟨id, hid⟩ := List.exists_mem_of_ne_nil forms hne
      rw [hall] at hid
      obtain ⟨path, d, n, hlisted, hload, hform, -⟩ :=
        (Catalog.mem_formsOf_indexOf fallbacks).1 hid
      simp only [List.not_mem_nil, false_iff]
      rintro ⟨-, hnone⟩
      exact (hnone d ⟨path, hlisted, hload⟩).2 n hform
    | none =>
      simp only [List.mem_singleton, iff_self_and]
      rintro - d hd
      refine ⟨hunits d hd, ?_⟩
      intro n hform
      obtain ⟨path, hlisted, hload⟩ := hd
      have hid := (Catalog.mem_formsOf_indexOf fallbacks).2
        ⟨path, d, n, hlisted, hload, hform, rfl⟩
      have hnil : (indexOf filters fallbacks paths t).formsOf ⟨locale, r.key⟩ = [] := by
        rw [Index.formsOf, ← Index.forms?, hforms]
        rfl
      rw [hnil] at hid
      cases hid

end Files

/-! ## One message and one catalog -/

def mainFile : String := "/Resources/Private/Translations/de/Main.xlf"

/-- The files of a project with one catalog. -/
def treeOf (text : String) : FileTree :=
  let directories := [["Resources"], ["Resources", "Private"],
    ["Resources", "Private", "Translations"], ["Resources", "Private", "Translations", "de"]]
  (directories.foldl (fun t place => t.put place .directory) FileTree.empty).put
    ["Resources", "Private", "Translations", "de", "Main.xlf"] (.text text)

def message (id : String) (isPlural : Bool) : Reference :=
  { key := ⟨"app", "Main", id⟩, format := .php, file := "a.php", line := 1, isPlural }

end TranslationAudit
