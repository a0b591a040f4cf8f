import Mathlib.Data.List.Nodup
import TranslationAudit.Proofs.Message.PluralForm
import TranslationAudit.Proofs.Message.ReferenceIndex
import TranslationAudit.Proofs.Reconcile

/-! # What a comparison lists

* `Unmatched`: the keys that a reference expects of a locale and that are not there.
* `nodup_missingPairs`: references of one kind leave no pair of locale and key unmatched twice.
* `count_missing`: a pair is listed for the reference that is not plural and for the plural one, so
  it is listed twice if both expect it.
-/

namespace TranslationAudit

open Catalog (Index)

def MissingTranslation.pair (m : MissingTranslation) : String × Key := (m.locale, m.key)

/-! ## One reference -/

/-- A key that a reference expects of a locale and that is not there: its own one, unless there is
an entry or a group, or that of a form, unless the group lists the form. -/
def Unmatched (index : Index) (locale : String) (r : Reference) (key : Key) : Prop :=
  if r.isPlural then
    ∃ n ∈ Key.expectedForms, key = r.key.pluralForm n ∧
      ∀ id ∈ (index.forms? locale r.key).getD [], (splitPluralForm id).map Prod.snd ≠ some n
  else key = r.key ∧ index.entry? locale key = none ∧ index.forms? locale key = none

section Reference

variable {index : Index} {locale : String} {r : Reference}

theorem missing_of_plural (h : r.isPlural = true) :
    (reconcileReference index locale r).missing.map MissingTranslation.pair =
      (Key.expectedForms.filter fun n => !(((index.forms? locale r.key).getD []).filterMap
        fun id => (splitPluralForm id).map Prod.snd).contains n).map
          fun n => (locale, r.key.pluralForm n) := by
  rw [reconcileReference, if_pos h, reconcilePlural, List.map_map]
  rfl

theorem missing_of_plain (h : r.isPlural = false) :
    (reconcileReference index locale r).missing.map MissingTranslation.pair =
      if index.entry? locale r.key = none ∧ index.forms? locale r.key = none then [(locale, r.key)]
      else [] := by
  rw [reconcileReference, if_neg (by simp [h]), reconcilePlain]
  cases index.entry? locale r.key with
  | some e => simp
  | none =>
    cases index.forms? locale r.key with
    | some forms => simp
    | none => rfl

/-- What is listed for a reference is what it leaves unmatched. -/
theorem mem_missing_pair_iff {pair : String × Key} :
    pair ∈ (reconcileReference index locale r).missing.map MissingTranslation.pair ↔
      pair.1 = locale ∧ Unmatched index locale r pair.2 := by
  obtain ⟨other, key⟩ := pair
  unfold Unmatched
  cases hplural : r.isPlural with
  | true =>
    rw [missing_of_plural hplural, if_pos rfl]
    simp only [List.mem_map, List.mem_filter, Bool.not_eq_true', Bool.eq_false_iff, ne_eq,
      List.contains_iff_mem, List.mem_filterMap, not_exists, not_and, Prod.mk.injEq]
    constructor
    · rintro ⟨n, ⟨hn, hnone⟩, rfl, rfl⟩
      exact ⟨rfl, n, hn, rfl, hnone⟩
    · rintro ⟨rfl, n, hn, rfl, hnone⟩
      exact ⟨n, ⟨hn, hnone⟩, rfl, rfl⟩
  | false =>
    rw [missing_of_plain hplural, if_neg Bool.false_ne_true]
    split
    · next hnone =>
      rw [List.mem_singleton, Prod.mk.injEq]
      constructor
      · rintro ⟨rfl, rfl⟩
        exact ⟨rfl, rfl, hnone⟩
      · rintro ⟨rfl, rfl, -⟩
        exact ⟨rfl, rfl⟩
    · next hsome =>
      refine iff_of_false List.not_mem_nil ?_
      rintro ⟨-, rfl, hnone⟩
      exact hsome hnone

theorem nodup_missing_pair :
    ((reconcileReference index locale r).missing.map MissingTranslation.pair).Nodup := by
  cases hplural : r.isPlural with
  | true =>
    rw [missing_of_plural hplural]
    have hforms : Key.expectedForms.Nodup := by decide
    refine List.Nodup.map_on ?_ (hforms.filter _)
    intro m _ n _ heq
    have hid := congrArg (fun pair : String × Key => pair.2.id) heq
    exact (pluralFormId_inj.1 hid).2
  | false =>
    rw [missing_of_plain hplural]
    split
    · exact List.nodup_singleton _
    · exact List.nodup_nil

/-- References of one kind that leave one key unmatched have one key. -/
theorem key_eq_of_unmatched {s : Reference} {other : String} {key : Key}
    (hkind : r.isPlural = s.isPlural) (hr : Unmatched index locale r key)
    (hs : Unmatched index other s key) : r.key = s.key := by
  unfold Unmatched at hr hs
  rw [hkind] at hr
  cases hplural : s.isPlural with
  | true =>
    rw [hplural, if_pos rfl] at hr hs
    obtain ⟨m, -, rfl, -⟩ := hr
    obtain ⟨n, -, heq, -⟩ := hs
    obtain ⟨hpackage, hsource, hid⟩ := Key.mk.inj heq
    exact (Key.mk.injEq ..).mpr ⟨hpackage, hsource, (pluralFormId_inj.1 hid).1⟩
  | false =>
    rw [hplural, if_neg Bool.false_ne_true] at hr hs
    exact hr.1.symm.trans hs.1

end Reference

/-! ## References of one kind -/

/-- What is listed for references in locales, as pairs of locale and key. -/
def missingPairs (index : Index) (locales : List String) (rs : List Reference) :
    List (String × Key) :=
  rs.flatMap fun r => locales.flatMap fun locale =>
    (reconcileReference index locale r).missing.map MissingTranslation.pair

theorem mem_missingPairs_iff {index : Index} {locales : List String} {rs : List Reference}
    {locale : String} {key : Key} :
    (locale, key) ∈ missingPairs index locales rs ↔
      locale ∈ locales ∧ ∃ r ∈ rs, Unmatched index locale r key := by
  simp only [missingPairs, List.mem_flatMap, mem_missing_pair_iff]
  constructor
  · rintro ⟨r, hr, _, hlocale, rfl, hunmatched⟩
    exact ⟨hlocale, r, hr, hunmatched⟩
  · rintro ⟨hlocale, r, hr, hunmatched⟩
    exact ⟨r, hr, locale, hlocale, rfl, hunmatched⟩

/-- References of one kind and of different keys list no pair twice. -/
theorem nodup_missingPairs (index : Index) {locales : List String} (hlocales : locales.Nodup)
    {rs : List Reference} (hkind : ∀ r ∈ rs, ∀ s ∈ rs, r.isPlural = s.isPlural)
    (hkeys : rs.Pairwise fun r s => r.key ≠ s.key) : (missingPairs index locales rs).Nodup := by
  rw [missingPairs, List.nodup_flatMap]
  constructor
  · intro r _
    rw [List.nodup_flatMap]
    refine ⟨fun locale _ => nodup_missing_pair, hlocales.imp ?_⟩
    intro a b hne pair ha hb
    exact hne ((mem_missing_pair_iff.1 ha).1.symm.trans (mem_missing_pair_iff.1 hb).1)
  · refine hkeys.imp_of_mem ?_
    intro r s hr hs hne pair hpair hother
    obtain ⟨a, -, ha⟩ := List.mem_flatMap.1 hpair
    obtain ⟨b, -, hb⟩ := List.mem_flatMap.1 hother
    exact hne (key_eq_of_unmatched (hkind r hr s hs) (mem_missing_pair_iff.1 ha).2
      (mem_missing_pair_iff.1 hb).2)

/-! ## All references -/

theorem nodup_compared {scope : Scope} (h : scope.locales.Nodup) (index : Index) :
    (scope.compared index).Nodup := by
  unfold Scope.compared
  split
  · exact (pairwise_ascending _).imp SortedMap.ne_of_lt
  · exact h

theorem missing_eq_missingPairs (references : ReferenceIndex) (index : Index) (scope : Scope) :
    (reconcile references index scope).missing.map MissingTranslation.pair =
      missingPairs index (scope.compared index)
        (references.references.filter fun r => scope.accepts r.key) := by
  simp only [reconcile, missingPairs, Scope.compared, List.map_flatMap, List.flatMap_assoc,
    List.flatMap_map]

/-- A canonical reference of a kind, plural or not, that is asked for leaves a key unmatched. -/
def IsAbsent (references : ReferenceIndex) (index : Index) (scope : Scope) (plural : Bool)
    (locale : String) (key : Key) : Prop :=
  ∃ r ∈ references.references, scope.accepts r.key = true ∧ r.isPlural = plural ∧
    Unmatched index locale r key

/-- The references of a kind that are asked for. -/
def ReferenceIndex.ofKind (references : ReferenceIndex) (scope : Scope) (plural : Bool) :
    List Reference :=
  (references.references.filter fun r => scope.accepts r.key).filter fun r => r.isPlural = plural

section Kinds

variable {rs : List Reference} {index : Index} {scope : Scope}

theorem mem_missingPairs_ofKind {references : ReferenceIndex} {plural : Bool} {locale : String}
    {key : Key} :
    (locale, key) ∈ missingPairs index (scope.compared index) (references.ofKind scope plural) ↔
      locale ∈ scope.compared index ∧ IsAbsent references index scope plural locale key := by
  rw [mem_missingPairs_iff]
  simp only [ReferenceIndex.ofKind, IsAbsent, List.mem_filter, decide_eq_true_eq, and_assoc]

theorem nodup_missingPairs_ofKind (hdistinct : scope.locales.Nodup) (plural : Bool) :
    (missingPairs index (scope.compared index)
      ((ReferenceIndex.ofReferences rs).ofKind scope plural)).Nodup := by
  apply nodup_missingPairs index (nodup_compared hdistinct index)
  · intro r hr s hs
    have hkind {a : Reference} (ha : a ∈ (ReferenceIndex.ofReferences rs).ofKind scope plural) :
        a.isPlural = plural := by simpa using (List.mem_filter.1 ha).2
    rw [hkind hr, hkind hs]
  · have hkeys := (ReferenceIndex.keyed_ofReferences rs).pairwise_references
    exact ((hkeys.imp SortedMap.ne_of_lt).filter _).filter _

/-- What is listed is what is listed for the plural references and for the other ones. -/
theorem missing_perm (references : ReferenceIndex) (index : Index) (scope : Scope) :
    ((reconcile references index scope).missing.map MissingTranslation.pair).Perm
      (missingPairs index (scope.compared index) (references.ofKind scope false) ++
        missingPairs index (scope.compared index) (references.ofKind scope true)) := by
  have hsplit (rs : List Reference) :
      rs.Perm (rs.filter (fun r => r.isPlural = false) ++ rs.filter fun r => r.isPlural = true) := by
    have hperm := List.filter_append_perm (fun r : Reference => decide (r.isPlural = false)) rs
    refine hperm.symm.trans (.of_eq ?_)
    simp
  rw [missing_eq_missingPairs]
  refine ((hsplit _).flatMap_right _).trans (.of_eq ?_)
  rw [List.flatMap_append]
  rfl

end Kinds

/-- What is listed is what a canonical reference leaves unmatched in a locale that is compared. A
pair is listed for a plural reference and for one that is not plural, so it is listed once if
references of one kind leave it unmatched and twice if those of both kinds do. -/
theorem count_missing (rs : List Reference) (index : Index) (scope : Scope)
    (hdistinct : scope.locales.Nodup) (locale : String) (key : Key) :
    let references := ReferenceIndex.ofReferences rs
    let pairs := (reconcile references index scope).missing.map MissingTranslation.pair
    let plain := locale ∈ scope.compared index ∧ IsAbsent references index scope false locale key
    let form := locale ∈ scope.compared index ∧ IsAbsent references index scope true locale key
    ((locale, key) ∈ pairs ↔ plain ∨ form) ∧
      (pairs.count (locale, key) = 1 ↔ (plain ∨ form) ∧ ¬(plain ∧ form)) ∧
      (pairs.count (locale, key) = 2 ↔ plain ∧ form) ∧ pairs.count (locale, key) ≤ 2 := by
  intro references pairs plain form
  let listed (plural : Bool) : List (String × Key) :=
    missingPairs index (scope.compared index) (references.ofKind scope plural)
  have hcount : pairs.count (locale, key) =
      (listed false).count (locale, key) + (listed true).count (locale, key) := by
    rw [(missing_perm references index scope).count_eq, List.count_append]
  have hle (plural : Bool) : (listed plural).count (locale, key) ≤ 1 :=
    List.nodup_iff_count_le_one.1 (nodup_missingPairs_ofKind hdistinct plural) _
  have hplain : 0 < (listed false).count (locale, key) ↔ plain :=
    List.count_pos_iff.trans mem_missingPairs_ofKind
  have hform : 0 < (listed true).count (locale, key) ↔ form :=
    List.count_pos_iff.trans mem_missingPairs_ofKind
  have hfalse := hle false
  have htrue := hle true
  rw [← List.count_pos_iff, ← hplain, ← hform, hcount]
  omega

/-- A form of a plural message that has a reference of its own is listed twice. -/
theorem count_missing_twice :
    let rs := [message "a" true, message "a[0]" false]
    let scope : Scope := { locales := ["de"] }
    scope.locales.Nodup ∧
      ((reconcile (.ofReferences rs) {} scope).missing.map MissingTranslation.pair).count
        ("de", ⟨"app", "Main", "a[0]"⟩) = 2 := by
  intro rs scope
  have hlocales : scope.locales.Nodup := by decide
  refine ⟨hlocales, ?_⟩
  obtain ⟨-, -, htwice, -⟩ := count_missing rs {} scope hlocales "de" ⟨"app", "Main", "a[0]"⟩
  rw [htwice]
  refine ⟨⟨by decide, message "a[0]" false, by decide, by decide, rfl, ?_⟩,
    ⟨by decide, message "a" true, by decide, by decide, rfl, ?_⟩⟩
  · exact ⟨rfl, rfl, rfl⟩
  · exact ⟨0, by decide, by decide, nofun⟩

end TranslationAudit
