import Mathlib.Data.List.Induction
import TranslationAudit.Message.Reference
import TranslationAudit.Proofs.Catalog.Index

/-! # The index of references

* `ReferenceIndex.Records`: what an index holds after given references were added one by one.
* `Records.add`, `records_ofReferences`: one more reference, and the whole run.
* `ofReferences_keeps`: no reference is lost, and the order of addition is kept for each key.
* `get?_ofReferences`, `contains_ofReferences`: look-ups in the list of references.
-/

namespace TranslationAudit.ReferenceIndex

/-- The references of a key, in the order of a list. -/
def occurrences (rs : List Reference) (k : Key) : List Reference := rs.filter fun r => r.key = k

theorem occurrences_concat (rs : List Reference) (r : Reference) (k : Key) :
    occurrences (rs ++ [r]) k =
      if r.key = k then occurrences rs k ++ [r] else occurrences rs k := by
  rw [occurrences, List.filter_append]
  by_cases hk : r.key = k <;> simp [occurrences, hk]

/-! ## What an index holds -/

/-- An index that holds given references, added one by one: of each key the first one is canonical
and all others come later. -/
structure Records (index : ReferenceIndex) (rs : List Reference) : Prop where
  canonicalAscending : index.canonical.Ascending
  laterAscending : index.later.Ascending
  canonical : ∀ k, index.canonical.get? k = (occurrences rs k).head?
  later : ∀ k, index.later.get? k = some (occurrences rs k).tail ∨
    index.later.get? k = none ∧ (occurrences rs k).tail = []
  nonempty : ∀ k, index.later.get? k ≠ some []
  counted : index.uniqueCount + index.duplicateCount = index.totalCount
  total : index.totalCount = rs.length

theorem records_empty : empty.Records [] where
  canonicalAscending := SortedMap.ascending_empty
  laterAscending := SortedMap.ascending_empty
  canonical _ := rfl
  later _ := .inr ⟨rfl, rfl⟩
  nonempty _ := nofun
  counted := rfl
  total := rfl

namespace Records

variable {index : ReferenceIndex} {rs : List Reference} (h : index.Records rs)

include h

theorem getD_later (k : Key) : (index.later.get? k).getD [] = (occurrences rs k).tail := by
  rcases h.later k with hlater | ⟨hlater, htail⟩
  · rw [hlater, Option.getD_some]
  · rw [hlater, htail, Option.getD_none]

theorem contains_iff {k : Key} : index.contains k = true ↔ occurrences rs k ≠ [] := by
  rw [contains, SortedMap.contains, h.canonical, List.isSome_head?]

/-- A reference of a new key becomes the canonical one of that key. -/
theorem addFirst {r : Reference} (hnew : occurrences rs r.key = []) :
    ({ index with
      canonical := index.canonical.insert r.key r
      totalCount := index.totalCount + 1 } : ReferenceIndex).Records (rs ++ [r]) where
  canonicalAscending := h.canonicalAscending.insert _ _
  laterAscending := h.laterAscending
  canonical k := by
    rw [occurrences_concat, SortedMap.get?_insert, h.canonical]
    by_cases hk : k = r.key
    · rw [if_pos hk, if_pos hk.symm, hk, hnew]
      rfl
    · rw [if_neg hk, if_neg (Ne.symm hk)]
  later k := by
    rw [occurrences_concat]
    split
    · next hk =>
      have hlater := h.later k
      rw [← hk, hnew] at hlater ⊢
      exact hlater
    · exact h.later k
  nonempty := h.nonempty
  counted := by
    have hsum := SortedMap.sum_alter h.canonicalAscending r.key (fun _ => r) fun _ => 1
    have hnone : index.canonical.get? r.key = none := by rw [h.canonical, hnew, List.head?_nil]
    rw [SortedMap.sum_one, SortedMap.sum_one, hnone, Option.map_none, Option.getD_none] at hsum
    have hcounted := h.counted
    simp only [uniqueCount, duplicateCount, SortedMap.insert] at hcounted ⊢
    omega
  total := by rw [h.total, List.length_append, List.length_singleton]

/-- A reference of a known key comes after all others of that key. -/
theorem addLater {r : Reference} (hknown : occurrences rs r.key ≠ []) :
    ({ index with
      later := index.later.alter r.key fun rs => rs.getD [] ++ [r]
      totalCount := index.totalCount + 1 } : ReferenceIndex).Records (rs ++ [r]) where
  canonicalAscending := h.canonicalAscending
  laterAscending := h.laterAscending.alter _ _
  canonical k := by
    rw [occurrences_concat, h.canonical]
    split
    · next hk => rw [← hk, List.head?_append_of_ne_nil _ hknown]
    · rfl
  later k := by
    rw [occurrences_concat]
    by_cases hk : k = r.key
    · left
      rw [if_pos hk.symm, hk, SortedMap.get?_alter_self h.laterAscending, h.getD_later,
        List.tail_append_of_ne_nil hknown]
    · rw [if_neg (Ne.symm hk), SortedMap.get?_alter_ne _ hk]
      exact h.later k
  nonempty k := by
    by_cases hk : k = r.key
    · rw [hk, SortedMap.get?_alter_self h.laterAscending]
      simp
    · rw [SortedMap.get?_alter_ne _ hk]
      exact h.nonempty k
  counted := by
    have hsum := SortedMap.sum_alter h.laterAscending r.key
      (fun rs => rs.getD [] ++ [r]) List.length
    have hlength : ((index.later.get? r.key).map List.length).getD 0 =
        ((index.later.get? r.key).getD []).length := by
      cases index.later.get? r.key <;> rfl
    rw [hlength, List.length_append, List.length_singleton] at hsum
    have hcounted := h.counted
    simp only [uniqueCount, duplicateCount] at hcounted ⊢
    omega
  total := by rw [h.total, List.length_append, List.length_singleton]

theorem add (r : Reference) : (index.add r).Records (rs ++ [r]) := by
  unfold ReferenceIndex.add
  split
  · next hknown => exact h.addLater (h.contains_iff.1 hknown)
  · next hnew =>
    apply h.addFirst
    by_contra hknown
    exact hnew (h.contains_iff.2 hknown)

end Records

theorem records_ofReferences (rs : List Reference) : (ofReferences rs).Records rs := by
  induction rs using List.reverseRecOn with
  | nil => exact records_empty
  | append_singleton rs r ih =>
    rw [ofReferences, List.foldl_append]
    exact ih.add r

/-! ## Look-ups -/

/-- The canonical reference of a key is the first one. -/
theorem get?_ofReferences (rs : List Reference) (k : Key) :
    (ofReferences rs).get? k = rs.find? fun r => r.key = k := by
  rw [get?, (records_ofReferences rs).canonical, occurrences, List.head?_filter]

theorem contains_ofReferences {rs : List Reference} {k : Key} :
    (ofReferences rs).contains k = true ↔ ∃ r ∈ rs, r.key = k := by
  rw [(records_ofReferences rs).contains_iff, occurrences, Ne, List.filter_eq_nil_iff]
  simp

/-- An index in which each canonical reference stands under its key. -/
structure Keyed (index : ReferenceIndex) : Prop where
  ascending : index.canonical.Ascending
  canonical : ∀ k r, index.get? k = some r → r.key = k

theorem keyed_ofReferences (rs : List Reference) : (ofReferences rs).Keyed where
  ascending := (records_ofReferences rs).canonicalAscending
  canonical k r hr := by
    rw [get?_ofReferences] at hr
    simpa using List.find?_some hr

namespace Keyed

variable {index : ReferenceIndex} (h : index.Keyed)

include h

theorem mem_references_iff {r : Reference} :
    r ∈ index.references ↔ index.get? r.key = some r := by
  rw [references, SortedMap.values, List.mem_map]
  constructor
  · rintro ⟨⟨k, s⟩, he, rfl⟩
    have hget := (SortedMap.get?_eq_some_iff h.ascending).2 he
    rwa [h.canonical k s hget]
  · intro hr
    exact ⟨(r.key, r), SortedMap.mem_of_get? hr, rfl⟩

theorem contains_key {r : Reference} (hr : r ∈ index.references) :
    index.contains r.key = true := by
  have hget := h.mem_references_iff.1 hr
  rw [get?] at hget
  rw [contains, SortedMap.contains, hget, Option.isSome_some]

theorem keys_eq : index.references.map Reference.key = index.canonical.keys := by
  rw [references, SortedMap.values, SortedMap.keys, List.map_map]
  apply List.map_congr_left
  rintro ⟨k, r⟩ he
  exact h.canonical k r ((SortedMap.get?_eq_some_iff h.ascending).2 he)

/-- The canonical references ascend by key. -/
theorem pairwise_references :
    index.references.Pairwise fun a b => compare a.key b.key = .lt := by
  have hkeys : (index.references.map Reference.key).Pairwise fun a b => compare a b = .lt := by
    rw [h.keys_eq, SortedMap.keys, List.pairwise_map]
    exact h.ascending
  exact List.pairwise_map.1 hkeys

end Keyed

/-! ## Every reference is kept -/

theorem Records.mem_duplicates_iff {index : ReferenceIndex} {rs : List Reference}
    (h : index.Records rs) {k : Key} {ds : List Reference} :
    (k, ds) ∈ index.duplicates ↔ 2 ≤ (occurrences rs k).length ∧ ds = (occurrences rs k).tail := by
  have htwo : 2 ≤ (occurrences rs k).length ↔ (occurrences rs k).tail ≠ [] := by
    rw [← List.length_pos_iff, List.length_tail]
    omega
  rw [duplicates, ← SortedMap.get?_eq_some_iff h.laterAscending, htwo]
  rcases h.later k with hlater | ⟨hlater, htail⟩
  · have hne := h.nonempty k
    rw [hlater] at hne ⊢
    constructor
    · intro heq
      cases heq
      exact ⟨fun hnil => hne (congrArg some hnil), rfl⟩
    · rintro ⟨-, rfl⟩
      rfl
  · simp [hlater, htail]

/-- The references of a key are found in the order in which they were added, the first as its
canonical one and the others as its duplicates. The canonical references and the duplicates ascend
by key, and together they are as many as were added. -/
theorem ofReferences_keeps (rs : List Reference) :
    let index := ofReferences rs
    (∀ k, index.allFor k = rs.filter (fun r => r.key = k) ∧
      index.get? k = (rs.filter fun r => r.key = k).head? ∧
      ∀ ds, (k, ds) ∈ index.duplicates ↔
        2 ≤ (rs.filter fun r => r.key = k).length ∧ ds = (rs.filter fun r => r.key = k).tail) ∧
      (index.duplicates.map Prod.fst).Pairwise (fun j k => compare j k = .lt) ∧
      (index.references.map Reference.key).Pairwise (fun j k => compare j k = .lt) ∧
      (∀ r, r ∈ index.references ↔ index.get? r.key = some r) ∧
      (∀ k, k ∈ index.references.map Reference.key ↔ ∃ r ∈ rs, r.key = k) ∧
      index.uniqueCount + index.duplicateCount = index.totalCount ∧
      index.totalCount = rs.length := by
  intro index
  have hrecords : index.Records rs := records_ofReferences rs
  have hkeyed : index.Keyed := keyed_ofReferences rs
  refine ⟨fun k => ⟨?_, hrecords.canonical k, fun ds => hrecords.mem_duplicates_iff⟩,
    List.pairwise_map.2 hrecords.laterAscending, List.pairwise_map.2 hkeyed.pairwise_references,
    fun r => hkeyed.mem_references_iff, ?_, hrecords.counted, hrecords.total⟩
  · rw [allFor, hrecords.canonical, hrecords.getD_later]
    cases hof : occurrences rs k with
    | nil => exact hof.symm
    | cons r ds => exact hof.symm
  · intro k
    rw [← contains_ofReferences, contains, SortedMap.contains, Option.isSome_iff_exists, List.mem_map]
    constructor
    · rintro ⟨r, hr, rfl⟩
      exact ⟨r, hkeyed.mem_references_iff.1 hr⟩
    · rintro ⟨r, hr⟩
      have hkey := hkeyed.canonical k r hr
      exact ⟨r, hkeyed.mem_references_iff.2 (hkey ▸ hr), hkey⟩

end TranslationAudit.ReferenceIndex
