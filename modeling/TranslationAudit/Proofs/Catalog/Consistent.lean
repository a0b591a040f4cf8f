import TranslationAudit.Proofs.Catalog.Insert

/-! # Recorded places

* `PluralGroup.Consistent`, `Document.Consistent`: groups and catalogs that record places only of
  what they have.
* `Document.Consistent.insert`, `Document.Consistent.remove`: additions and removals keep this.
* `Document.Reached`: catalogs that come from one that was read; `Document.Reached.consistent`: they
  are consistent.
-/

namespace TranslationAudit.Catalog

/-! ## Groups -/

namespace PluralGroup

variable {g : PluralGroup}

/-- Groups that record forms that they have only. -/
structure Consistent (g : PluralGroup) : Prop where
  ascending : g.forms.Ascending
  recorded : ∀ i, .form i ∈ g.children → g.forms.contains i = true

theorem Consistent.empty : ({} : PluralGroup).Consistent where
  ascending := SortedMap.ascending_empty
  recorded _ h := by cases h

theorem Consistent.withForm (h : g.Consistent) (i : Nat) (u : TransUnit) :
    (g.withForm i u).Consistent where
  ascending := h.ascending.insert i u
  recorded j hj := by
    rw [Document.contains_withForm, Bool.or_eq_true, decide_eq_true_eq]
    rcases List.mem_append.1 hj with hj | hj
    · exact .inr (h.recorded j hj)
    · cases List.mem_singleton.1 hj
      exact .inl rfl

theorem Consistent.withoutForm (h : g.Consistent) (i : Nat) : (g.withoutForm i).Consistent where
  ascending := h.ascending.filter _
  recorded j hj := by
    rw [PluralGroup.withoutForm, List.mem_filter] at hj
    have hne : j ≠ i := by
      rintro rfl
      simp [Document.isFormChild] at hj
    rw [SortedMap.contains, PluralGroup.withoutForm, SortedMap.get?_filter_ne h.ascending,
      if_neg hne]
    exact h.recorded j hj.1

theorem consistent_readGroup {id : String} {e : Markup.Element} (h : readGroup id e = some g) :
    g.Consistent := by
  obtain ⟨ps, hps, rfl⟩ := readGroup_eq_some.1 h
  have hstable := stable_of_readParts (fun _ _ _ _ hv => (formVerdict_keyed hv).1) hps
  refine ⟨ascending_formsOf _, ?_⟩
  intro i hi
  obtain ⟨p, hp, heq⟩ := List.mem_map.1 hi
  cases p with
  | foreign n => cases heq
  | keyed j u =>
    cases heq
    have hu := (mem_formsOf hstable.nodup.1).2 (Part.mem_entries.2 hp)
    rw [SortedMap.contains, ofParts, (SortedMap.get?_eq_some_iff (ascending_formsOf _)).2 hu]
    rfl

end PluralGroup

/-! ## Catalogs -/

namespace Document

variable {d : Document}

/-- Catalogs with each identifier once that record units and forms that they have only. -/
structure Consistent (d : Document) : Prop where
  distinct : d.units.Distinct
  recorded : ∀ id, .unit id ∈ d.body → d.units.contains id = true
  groups : ∀ id g, d.units.get? id = some (.plural g) → g.Consistent

theorem Consistent.empty : ({} : Document).Consistent where
  distinct := Dict.distinct_empty
  recorded _ h := by cases h
  groups _ _ h := by cases h

theorem Consistent.insertUnit (h : d.Consistent) (id : String) {w : CatalogUnit}
    (hw : ∀ g, w = .plural g → g.Consistent) :
    ({ d with units := d.units.insert id w } : Document).Consistent where
  distinct := h.distinct.insert id w
  recorded other hother := by
    rw [Dict.contains, Dict.get?_insert]
    split
    · rfl
    · exact h.recorded other hother
  groups other g hg := by
    rw [Dict.get?_insert] at hg
    split at hg
    · exact hw g (Option.some.inj hg)
    · exact h.groups other g hg

theorem Consistent.drop (h : d.Consistent) (id : String) : (d.drop id).Consistent where
  distinct := h.distinct.erase id
  recorded other hother := by
    obtain ⟨hother, hunit⟩ := List.mem_filter.1 hother
    have hne : other ≠ id := by
      rintro rfl
      simp [isUnitNode] at hunit
    rw [Dict.contains, Document.drop, Dict.get?_erase, if_neg hne]
    exact h.recorded other hother
  groups other g hg := by
    rw [Document.drop, Dict.get?_erase] at hg
    split at hg
    · cases hg
    · exact h.groups other g hg

theorem Consistent.insert (h : d.Consistent) (id : String) (u : TransUnit) :
    (d.insert id u).1.Consistent := by
  rcases insert_cases d id u with heq | ⟨base, g, i, -, -, hg, -, heq⟩ | ⟨-, -, heq⟩
  · rw [heq]
    exact h
  · have hgroup : g.Consistent := by
      rcases hg with hg | ⟨-, rfl⟩
      · exact h.groups base g hg
      · exact .empty
    rw [heq]
    refine h.insertUnit base fun g' hg' => ?_
    cases hg'
    exact hgroup.withForm i u
  · rw [heq]
    exact h.insertUnit id nofun

theorem Consistent.remove (h : d.Consistent) (id : String) : (d.remove id).1.Consistent := by
  rcases remove_cases d id with heq | ⟨-, heq⟩ | ⟨base, i, g, -, hg, -, ⟨-, heq⟩ | heq⟩
  · rw [heq]
    exact h
  · rw [heq]
    exact h.drop id
  · rw [heq]
    exact h.drop base
  · rw [heq]
    refine h.insertUnit base fun g' hg' => ?_
    cases hg'
    exact (h.groups base g hg).withoutForm i

theorem consistent_of_parse {path text : String} (h : parse path text = .ok d) :
    d.Consistent := by
  have hkeyed := keyed_of_parse h
  obtain ⟨root, -, hd⟩ := parse_eq_ok h
  rcases ofRoot?_eq_some hd with rfl | ⟨file, ps, -, hps, rfl⟩
  · exact .empty
  · have hunits : ((ofFile file).addParts ps).units.entries = Part.entries ps := by
      simp [addParts, ofFile, Dict.empty]
    have hbody : ((ofFile file).addParts ps).body = ps.map BodyNode.ofPart := by
      simp [addParts, ofFile]
    refine ⟨hkeyed.distinct, ?_, ?_⟩
    · intro id hid
      rw [hbody] at hid
      obtain ⟨p, hp, heq⟩ := List.mem_map.1 hid
      cases p with
      | foreign n => cases heq
      | keyed k u =>
        cases heq
        rw [Dict.contains_iff, Dict.keys, hunits]
        exact Part.mem_keys.2 ⟨u, hp⟩
    · intro id g hg
      have hmem := Dict.mem_of_get? hg
      rw [hunits] at hmem
      rcases mem_of_readParts hps (Part.mem_entries.1 hmem) with
        ⟨m, -, hm, -⟩ | ⟨e, k, v, seen, -, hverdict, heq⟩
      · cases hm
      · cases heq
        obtain ⟨-, -, -, ⟨-, hsingle⟩ | ⟨g', -, hread, heq⟩⟩ := bodyVerdict_keyed hverdict
        · cases hsingle
        · cases heq
          exact PluralGroup.consistent_readGroup hread

/-- Catalogs that come from a catalog that was read, by any additions and removals. -/
inductive Reached : Document → Prop
  | parsed {path text : String} {d : Document} (h : parse path text = .ok d) : Reached d
  | inserted {d : Document} (id : String) (u : TransUnit) (h : Reached d) :
      Reached (d.insert id u).1
  | removed {d : Document} (id : String) (h : Reached d) : Reached (d.remove id).1

theorem Reached.consistent (h : d.Reached) : d.Consistent := by
  induction h with
  | parsed h => exact consistent_of_parse h
  | inserted id u _ ih => exact ih.insert id u
  | removed id _ ih => exact ih.remove id

end Document

end TranslationAudit.Catalog
