import TranslationAudit.Catalog.Store
import TranslationAudit.Proofs.Catalog.Body

/-! # The concrete units of a catalog

* `Document.HasSingle`, `Document.HasForm`: the units and plural forms that a catalog has.
* `Document.Keyed`: catalogs with each identifier and each form once, as those that were read are.
* `Document.HasUnit`, `Document.Keyed.hasUnit_iff`: the concrete units are the single units and the
  forms.
-/

namespace TranslationAudit.Catalog

open Markup (Element Node)

namespace Document

variable {d : Document}

def HasSingle (d : Document) (id : String) : Prop := ∃ u, d.units.get? id = some (.single u)

def HasForm (d : Document) (base : String) (n : Nat) : Prop :=
  ∃ g, d.units.get? base = some (.plural g) ∧ g.forms.contains n = true

/-- Whether a catalog has a concrete unit. -/
def HasUnit (d : Document) (id : String) : Prop := ∃ u, (id, u) ∈ d.concreteUnits

/-- Catalogs with each identifier and each form once, where forms have identifiers. -/
structure Keyed (d : Document) : Prop where
  distinct : d.units.Distinct
  ascending : ∀ id g, (id, .plural g) ∈ d.units.entries → g.forms.Ascending
  indexes : ∀ id g, (id, .plural g) ∈ d.units.entries → ∀ n u, (n, u) ∈ g.forms.entries →
    id ≠ "" ∧ n < formLimit

theorem Keyed.empty : ({} : Document).Keyed where
  distinct := Dict.distinct_empty
  ascending _ _ h := by cases h
  indexes _ _ h := by cases h

/-! ## Catalogs that were read -/

theorem ascending_readGroup {id : String} {e : Element} {g : PluralGroup}
    (h : readGroup id e = some g) :
    g.forms.Ascending ∧ ∀ n u, (n, u) ∈ g.forms.entries → id ≠ "" ∧ n < formLimit := by
  obtain ⟨ps, hps, rfl⟩ := readGroup_eq_some.1 h
  refine ⟨ascending_formsOf _, ?_⟩
  intro n u hu
  have hstable := stable_of_readParts (fun _ _ _ _ hv => (formVerdict_keyed hv).1) hps
  have hp := Part.mem_entries.1 ((mem_formsOf hstable.nodup.1).1 hu)
  rcases mem_of_readParts hps hp with ⟨m, -, hm, -⟩ | ⟨f, i, v, seen, -, hverdict, heq⟩
  · cases hm
  · cases heq
    exact formIndex?_eq_some (formVerdict_keyed hverdict).2.2.2

theorem keyed_of_readParts {ns : List Node} {ps : List (Part String CatalogUnit)}
    (h : readParts bodyVerdict [] ns = some ps) (hunits : d.units = ⟨Part.entries ps⟩) :
    d.Keyed := by
  have hstable := stable_of_readParts (fun _ _ _ _ hv => (bodyVerdict_keyed hv).1) h
  have hgroup {id : String} {g : PluralGroup} (hg : (id, .plural g) ∈ d.units.entries) :
      ∃ e, readGroup id e = some g := by
    rw [hunits] at hg
    have hp := Part.mem_entries.1 hg
    rcases mem_of_readParts h hp with ⟨m, -, hm, -⟩ | ⟨e, k, v, seen, -, hverdict, heq⟩
    · cases hm
    · cases heq
      obtain ⟨-, -, -, ⟨-, hsingle⟩ | ⟨g', -, hread, heq⟩⟩ := bodyVerdict_keyed hverdict
      · cases hsingle
      · cases heq
        exact ⟨e, hread⟩
  refine ⟨?_, ?_, ?_⟩
  · rw [Dict.Distinct, hunits]
    exact hstable.nodup.1
  · intro id g hg
    obtain ⟨e, hread⟩ := hgroup hg
    exact (ascending_readGroup hread).1
  · intro id g hg
    obtain ⟨e, hread⟩ := hgroup hg
    exact (ascending_readGroup hread).2

/-- Whatever was read has each identifier and each form once. -/
theorem keyed_of_parse {path text : String} (h : parse path text = .ok d) : d.Keyed := by
  obtain ⟨root, -, hd⟩ := parse_eq_ok h
  rcases ofRoot?_eq_some hd with rfl | ⟨file, ps, -, hps, rfl⟩
  · exact .empty
  · refine keyed_of_readParts hps ?_
    simp [addParts, ofFile, Dict.empty]

theorem keyed_of_load {t : FileTree} {path : String} (h : load t path = .ok d) : d.Keyed := by
  unfold load at h
  split at h
  · exact keyed_of_parse h
  · cases h
    exact .empty
  · cases h

/-! ## Single units and forms -/

namespace Keyed

variable (h : d.Keyed)
include h

theorem forms {id : String} {g : PluralGroup} (hg : d.units.get? id = some (.plural g)) :
    g.forms.Ascending ∧ ∀ n, g.forms.contains n = true → id ≠ "" ∧ n < formLimit := by
  have hmem := Dict.mem_of_get? hg
  have hascending := h.ascending id g hmem
  refine ⟨hascending, ?_⟩
  intro n hn
  obtain ⟨u, hu⟩ := Option.isSome_iff_exists.1 hn
  exact h.indexes id g hmem n u ((SortedMap.get?_eq_some_iff hascending).1 hu)

theorem split_form {base : String} {n : Nat} (hform : d.HasForm base n) :
    splitPluralForm (pluralFormId base n) = some (base, n) := by
  obtain ⟨g, hg, hn⟩ := hform
  obtain ⟨hbase, hlimit⟩ := (h.forms hg).2 n hn
  exact splitPluralForm_pluralFormId hbase hlimit

theorem hasForm_iff {base : String} {n : Nat} :
    d.HasForm base n ↔
      ∃ g u, (base, .plural g) ∈ d.units.entries ∧ (n, u) ∈ g.forms.entries := by
  constructor
  · rintro ⟨g, hg, hn⟩
    obtain ⟨u, hu⟩ := Option.isSome_iff_exists.1 hn
    exact ⟨g, u, Dict.mem_of_get? hg, (SortedMap.get?_eq_some_iff (h.forms hg).1).1 hu⟩
  · rintro ⟨g, u, hg, hu⟩
    have hget := (SortedMap.get?_eq_some_iff (h.ascending base g hg)).2 hu
    exact ⟨g, (Dict.get?_eq_some_iff h.distinct).2 hg, SortedMap.contains_of_get? hget⟩

/-- The concrete units are the single units and the forms. -/
theorem hasUnit_iff {id : String} :
    d.HasUnit id ↔
      d.HasSingle id ∨ ∃ base n, d.HasForm base n ∧ id = pluralFormId base n := by
  constructor
  · rintro ⟨u, hu⟩
    obtain ⟨⟨name, v⟩, hv, hu⟩ := List.mem_flatMap.1 hu
    cases v with
    | single v =>
      simp only [concreteUnitsOf, List.mem_singleton, Prod.mk.injEq] at hu
      obtain ⟨rfl, rfl⟩ := hu
      exact .inl ⟨u, (Dict.get?_eq_some_iff h.distinct).2 hv⟩
    | plural g =>
      obtain ⟨⟨n, w⟩, hw, heq⟩ := List.mem_map.1 hu
      cases heq
      exact .inr ⟨name, n, h.hasForm_iff.2 ⟨g, u, hv, hw⟩, rfl⟩
  · rintro (⟨u, hu⟩ | ⟨base, n, hform, rfl⟩)
    · refine ⟨u, List.mem_flatMap.2 ⟨(id, .single u), Dict.mem_of_get? hu, ?_⟩⟩
      exact List.mem_singleton.2 rfl
    · obtain ⟨g, u, hg, hu⟩ := h.hasForm_iff.1 hform
      refine ⟨u, List.mem_flatMap.2 ⟨(base, .plural g), hg, ?_⟩⟩
      exact List.mem_map.2 ⟨(n, u), hu, rfl⟩

end Keyed

end Document

end TranslationAudit.Catalog
