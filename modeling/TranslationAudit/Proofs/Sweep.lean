import TranslationAudit.Proofs.Catalog.Concrete
import TranslationAudit.Proofs.Message.ReferenceIndex
import TranslationAudit.Reconcile

/-! # Sweeping an index

* `Catalog.Index.without`: an index without given entries and the forms that they are.
* `Catalog.Index.Coherent`: what holds of the index of catalogs that were read.
* `reconcile_without_unused`: without the unused entries, a comparison finds what it found before,
  and no entry is unused.
-/

namespace TranslationAudit

namespace Catalog.Index

/-! ## Taking entries away -/

def isAmong (removed : List Entry) (k : LocalKey) : Bool := removed.any fun e => e.localKey = k

/-- The forms of a plural message that are not among given entries. -/
def formsLeft (removed : List Entry) (base : LocalKey) (forms : List String) : List String :=
  forms.filter fun id => !isAmong removed ⟨base.locale, { base.key with id }⟩

/-- An index without given entries. A plural message loses the forms that they are, and goes with
the last one; the catalog files stay. -/
def without (index : Index) (removed : List Entry) : Index :=
  { index with
    entries := index.entries.filterMap fun k e => if isAmong removed k then none else some e
    pluralGroups := index.pluralGroups.filterMap fun base forms =>
      if (formsLeft removed base forms).isEmpty then none else some (formsLeft removed base forms) }

variable {index : Index}

theorem entry?_without (h : index.Ordered) (removed : List Entry) (locale : String) (key : Key) :
    Index.entry? (index.without removed) locale key =
      if isAmong removed ⟨locale, key⟩ then none else index.entry? locale key := by
  unfold entry?
  rw [without, SortedMap.get?_filterMap h.entries]
  cases isAmong removed ⟨locale, key⟩ <;> simp

theorem forms?_without (h : index.Ordered) (removed : List Entry) (locale : String) (base : Key) :
    (index.without removed).forms? locale base =
      (index.forms? locale base).bind fun forms =>
        let left := formsLeft removed ⟨locale, base⟩ forms
        if left.isEmpty then none else some left :=
  SortedMap.get?_filterMap h.pluralGroups _ _

/-! ## Indexes of catalogs that were read -/

/-- An index as that of catalogs: entries stand under their keys and in locales with files, and
plural messages have forms. -/
structure Coherent (index : Index) : Prop extends Ordered index where
  key : ∀ k e, index.entries.get? k = some e → e.localKey = k
  located : ∀ k e, index.entries.get? k = some e →
    ∃ l, (index.file? l).isSome = true ∧ l.locale = k.locale
  numbered : ∀ base, ∀ id ∈ index.formsOf base, ∃ n, splitPluralForm id = some (base.key.id, n)

theorem coherent_buildIndex {filters : Filters} {pool : Pool} {catalogs : List LoadedCatalog}
    (hread : ∀ c ∈ catalogs, ∀ d, c.document = .ok d → d.Keyed) :
    (buildIndex filters pool catalogs).Coherent := by
  refine ⟨buildIndex_ordered, ?_, ?_, ?_⟩
  · intro k e he
    have he : Index.entry? (buildIndex filters pool catalogs) k.locale k.key = some e := he
    obtain ⟨c, -, d, -, id, u, -, -, hkey, -⟩ := buildIndex_entry? he
    exact hkey
  · intro k e he
    have he : Index.entry? (buildIndex filters pool catalogs) k.locale k.key = some e := he
    obtain ⟨c, hc, d, hd, id, u, -, hlocal, -, -⟩ := buildIndex_entry? he
    exact ⟨c.location, buildIndex_file_isSome hc hd.1, congrArg LocalKey.locale hlocal⟩
  · intro base id hid
    obtain ⟨c, hc, d, hd, name, g, n, u, hg, hu, rfl, rfl⟩ := mem_formsOf_buildIndex.1 hid
    obtain ⟨hname, hn⟩ := (hread c hc d hd.2).indexes name g hg n u hu
    exact ⟨n, splitPluralForm_pluralFormId hname hn⟩

namespace Coherent

variable (h : index.Coherent)
include h

theorem mem_values {e : Entry} :
    e ∈ index.entries.values ↔ index.entry? e.locale e.key = some e := by
  constructor
  · intro he
    obtain ⟨⟨k, e⟩, hk, rfl⟩ := List.mem_map.1 he
    have hget := (SortedMap.get?_eq_some_iff h.entries).2 hk
    have hkey := h.key k e hget
    rw [← hkey] at hget
    exact hget
  · intro he
    exact List.mem_map_of_mem (f := Prod.snd) (SortedMap.mem_of_get? he)

theorem nodup_values : index.entries.values.Nodup := by
  have hkeys : index.entries.values.map Entry.localKey = index.entries.keys := by
    rw [SortedMap.values, SortedMap.keys, List.map_map]
    apply List.map_congr_left
    rintro ⟨k, e⟩ hk
    exact h.key k e ((SortedMap.get?_eq_some_iff h.entries).2 hk)
  have hnodup := h.entries.nodup_keys
  rw [← hkeys] at hnodup
  exact List.Nodup.of_map Entry.localKey hnodup

end Coherent

end Catalog.Index

/-! ## Entries that are referenced -/

open Catalog (Entry Index LocalKey)

section Referenced

variable {references : ReferenceIndex} {index : Index} {scope : Scope}

theorem isReferenced_of_contains {k : Key} (h : references.contains k = true) :
    isReferenced references k = true := by
  rw [isReferenced, h, Bool.true_or]

theorem isReferenced_of_form {k : Key} {id : String} {n : Nat}
    (h : references.contains k = true) (hid : splitPluralForm id = some (k.id, n)) :
    isReferenced references { k with id } = true := by
  rw [isReferenced]
  simp only [hid, Option.any_some, h, Bool.or_true]

theorem not_isReferenced_of_mem {e : Entry} (h : e ∈ unusedEntries references index scope) :
    isReferenced references e.key = false := by
  have hp := (List.mem_filter.1 h).2
  simp only [Bool.and_eq_true, Bool.not_eq_true'] at hp
  exact hp.2

theorem isAmong_unused_eq_false {locale : String} {k : Key}
    (h : isReferenced references k = true) :
    Index.isAmong (unusedEntries references index scope) ⟨locale, k⟩ = false := by
  rw [Index.isAmong, List.any_eq_false]
  intro e he hkey
  have hk : e.key = k := congrArg LocalKey.key (of_decide_eq_true hkey)
  have hnot := not_isReferenced_of_mem he
  rw [hk, h] at hnot
  cases hnot

/-! ## What a comparison finds afterwards -/

variable (h : index.Coherent)
include h

theorem entry?_swept {k : Key} (hk : isReferenced references k = true) (locale : String) :
    Index.entry? (index.without (unusedEntries references index scope)) locale k =
      index.entry? locale k := by
  rw [Index.entry?_without h.toOrdered, isAmong_unused_eq_false hk]
  simp

theorem numbered_forms? {locale : String} {k : Key} {forms : List String}
    (hforms : index.forms? locale k = some forms) :
    ∀ id ∈ forms, ∃ n, splitPluralForm id = some (k.id, n) := by
  intro id hid
  refine h.numbered ⟨locale, k⟩ id ?_
  rw [Index.formsOf, ← Index.forms?, hforms]
  exact hid

/-- A message that is referenced keeps its forms. -/
theorem forms?_swept {k : Key} (hk : references.contains k = true) (locale : String) :
    (index.without (unusedEntries references index scope)).forms? locale k =
      index.forms? locale k := by
  rw [Index.forms?_without h.toOrdered]
  cases hforms : index.forms? locale k with
  | none => rfl
  | some forms =>
    have hleft : Index.formsLeft (unusedEntries references index scope) ⟨locale, k⟩ forms =
        forms := by
      rw [Index.formsLeft, List.filter_eq_self]
      intro id hid
      obtain ⟨n, hn⟩ := numbered_forms? h hforms id hid
      rw [isAmong_unused_eq_false (isReferenced_of_form hk hn)]
      rfl
    have hsome : forms ≠ [] := by
      rintro rfl
      exact h.forms ⟨locale, k⟩ hforms
    simp [hleft, hsome]

theorem formMismatches_swept {r : Reference} (hr : references.contains r.key = true)
    (locale : String) {forms : List String} (hforms : index.forms? locale r.key = some forms) :
    formMismatches (index.without (unusedEntries references index scope)) locale r forms =
      formMismatches index locale r forms := by
  unfold formMismatches
  apply List.filterMap_congr
  intro id hid
  obtain ⟨n, hn⟩ := numbered_forms? h hforms id hid
  simp only [entry?_swept h (isReferenced_of_form hr hn)]

theorem reconcileReference_swept {r : Reference} (hr : references.contains r.key = true)
    (locale : String) :
    reconcileReference (index.without (unusedEntries references index scope)) locale r =
      reconcileReference index locale r := by
  unfold reconcileReference
  by_cases hplural : r.isPlural = true
  · rw [if_pos hplural, if_pos hplural, reconcilePlural, reconcilePlural, forms?_swept h hr]
    cases hforms : index.forms? locale r.key with
    | none => rfl
    | some forms => simp only [Option.getD_some, formMismatches_swept h hr locale hforms]
  · rw [if_neg hplural, if_neg hplural, reconcilePlain, reconcilePlain,
      entry?_swept h (isReferenced_of_contains hr), forms?_swept h hr]
    cases index.entry? locale r.key with
    | some e => rfl
    | none =>
      cases hforms : index.forms? locale r.key with
      | none => rfl
      | some forms => simp only [formMismatches_swept h hr locale hforms]

/-- The locales stay: each entry stands in a locale that has a file. -/
theorem locales_swept (removed : List Entry) :
    (index.without removed).locales = index.locales := by
  unfold Index.locales
  apply ascending_congr
  intro locale
  rw [List.mem_append, List.mem_append]
  have hfiles : (index.without removed).files = index.files := rfl
  constructor
  · rintro (hfile | hentry)
    · exact .inl hfile
    · obtain ⟨k, hk, rfl⟩ := List.mem_map.1 hentry
      obtain ⟨⟨k, e⟩, he, rfl⟩ := List.mem_map.1 hk
      obtain ⟨e', he', -⟩ := SortedMap.mem_filterMap.1 he
      exact .inr (List.mem_map.2 ⟨k, List.mem_map_of_mem (f := Prod.fst) he', rfl⟩)
  · rintro (hfile | hentry)
    · exact .inl hfile
    · obtain ⟨k, hk, rfl⟩ := List.mem_map.1 hentry
      obtain ⟨⟨k, e⟩, he, rfl⟩ := List.mem_map.1 hk
      have hget := (SortedMap.get?_eq_some_iff h.entries).2 he
      obtain ⟨l, hl, hlocale⟩ := h.located k e hget
      obtain ⟨file, hfile⟩ := Option.isSome_iff_exists.1 hl
      refine .inl (List.mem_map.2 ⟨l, ?_, hlocale⟩)
      rw [hfiles]
      exact List.mem_map_of_mem (f := Prod.fst) (SortedMap.mem_of_get? hfile)

theorem unusedEntries_swept :
    unusedEntries references (index.without (unusedEntries references index scope)) scope =
      [] := by
  rw [unusedEntries, List.filter_eq_nil_iff]
  intro e he hunused
  obtain ⟨⟨k, e⟩, hke, rfl⟩ := List.mem_map.1 he
  obtain ⟨e', he', hleft⟩ := SortedMap.mem_filterMap.1 hke
  have hkey : e'.localKey = k := h.key k e' ((SortedMap.get?_eq_some_iff h.entries).2 he')
  split at hleft
  · cases hleft
  · next hamong =>
    cases hleft
    -- the entry is unused in the index before, so it was taken away
    have hmem : e ∈ unusedEntries references index scope :=
      List.mem_filter.2 ⟨List.mem_map_of_mem (f := Prod.snd) he', hunused⟩
    apply hamong
    rw [Index.isAmong, List.any_eq_true]
    exact ⟨e, hmem, by simp [hkey]⟩

end Referenced

/-- Without the unused entries, a comparison finds what it found before, and no entry is unused. -/
theorem reconcile_without_unused (rs : List Reference) (scope : Scope) (filters : Catalog.Filters)
    (pool : Catalog.Pool) (catalogs : List Catalog.LoadedCatalog)
    (hread : ∀ c ∈ catalogs, ∀ d, c.document = .ok d →
      ∃ path text, Catalog.Document.parse path text = .ok d) :
    let references := ReferenceIndex.ofReferences rs
    let index := Catalog.buildIndex filters pool catalogs
    let swept := index.without (unusedEntries references index scope)
    reconcile references swept scope = reconcile references index scope ∧
      unusedEntries references swept scope = [] := by
  intro references index swept
  have hcoherent : index.Coherent := by
    apply Catalog.Index.coherent_buildIndex
    intro c hc d hd
    obtain ⟨path, text, hparse⟩ := hread c hc d hd
    exact Catalog.Document.keyed_of_parse hparse
  refine ⟨?_, unusedEntries_swept hcoherent⟩
  have hkeyed : references.Keyed := ReferenceIndex.keyed_ofReferences rs
  have hfound : ∀ r ∈ references.references.filter fun r => scope.accepts r.key,
      ∀ locale, reconcileReference swept locale r = reconcileReference index locale r := by
    intro r hr locale
    have hcontains := hkeyed.contains_key (List.mem_of_mem_filter hr)
    exact reconcileReference_swept hcoherent hcontains locale
  have hlocales : swept.locales = index.locales := locales_swept hcoherent _
  have hall : (references.references.filter fun r => scope.accepts r.key).flatMap (fun r =>
        (if scope.locales.isEmpty then index.locales else scope.locales).map fun locale =>
          reconcileReference swept locale r) =
      (references.references.filter fun r => scope.accepts r.key).flatMap fun r =>
        (if scope.locales.isEmpty then index.locales else scope.locales).map fun locale =>
          reconcileReference index locale r := by
    apply List.flatMap_congr
    intro r hr
    apply List.map_congr_left
    intro locale _
    exact hfound r hr locale
  unfold reconcile
  rw [hlocales]
  simp only [hall]

/-- A single unit is unused beside a group of which a form is missing. -/
theorem reconcile_without_unused_group :
    let references := ReferenceIndex.ofReferences
      [{ key := ⟨"app", "Main", "a"⟩, format := .php, file := "a.php", line := 1, isPlural := true }]
    let catalogs : List Catalog.LoadedCatalog := [⟨"app.xlf", ⟨"de", "app", "Main"⟩,
      Catalog.Document.parse "app.xlf" ("<x><file><body><trans-unit id='b'/>" ++
        "<group id='a' restype='x-gettext-plurals'><trans-unit id='a[1]'/></group>" ++
        "</body></file></x>")⟩]
    let index := Catalog.buildIndex {} {} catalogs
    let unused := unusedEntries references index {}
    (unused.map (·.key.id) = ["b"] ∧
        (reconcile references index {}).missing.map (·.key.id) = ["a[0]"]) ∧
      reconcile references (index.without unused) {} = reconcile references index {} ∧
      unusedEntries references (index.without unused) {} = [] := by
  refine ⟨by decide +kernel, ?_⟩
  apply reconcile_without_unused
  intro c hc d hd
  rw [List.mem_singleton.1 hc] at hd
  dsimp only at hd
  exact ⟨_, _, hd⟩

end TranslationAudit
