import TranslationAudit.Proofs.Catalog.Insert

/-! # Units that were removed

* `Document.Without`: a change after which just the single units and forms of some identifiers are
  gone.
* `Document.Clear`: identifiers none of which names a single unit and is read as a form of a group.
* `Document.without_removeAll`: removals take away just what their identifiers name.
* `Document.edited_removeAll`: what is left can be read back.
-/

namespace TranslationAudit.Catalog

theorem PluralGroup.contains_withoutForm {g : PluralGroup} (h : g.forms.Ascending) (i n : Nat) :
    (g.withoutForm i).forms.contains n = (decide (n ≠ i) && g.forms.contains n) := by
  unfold withoutForm SortedMap.contains
  rw [SortedMap.get?_filter_ne h]
  by_cases hn : n = i <;> simp [hn]

namespace Document

variable {d d' d'' : Document} {id base : String} {n : Nat}

/-! ## What is gone -/

/-- Whether a catalog has a plural group, with or without forms. -/
def HasGroup (d : Document) (base : String) : Prop := ∃ g, d.units.get? base = some (.plural g)

theorem HasForm.group (h : d.HasForm base n) : d.HasGroup base := by
  obtain ⟨g, hg, -⟩ := h
  exact ⟨g, hg⟩

/-- Just the single units and forms of some identifiers are gone. -/
structure Without (d d' : Document) (ids : List String) : Prop where
  single : ∀ id, d'.HasSingle id ↔ d.HasSingle id ∧ id ∉ ids
  form : ∀ base n, d'.HasForm base n ↔ d.HasForm base n ∧ pluralFormId base n ∉ ids
  group : ∀ base, d'.HasGroup base → d.HasGroup base

theorem Without.refl (d : Document) : d.Without d [] where
  single id := by simp
  form base n := by simp
  group base h := h

theorem Without.trans {ids more : List String} (h : d.Without d' ids) (h' : d'.Without d'' more) :
    d.Without d'' (ids ++ more) where
  single id := by rw [h'.single, h.single, List.mem_append, not_or, and_assoc]
  form base n := by rw [h'.form, h.form, List.mem_append, not_or, and_assoc]
  group base hbase := h.group base (h'.group base hbase)

theorem Without.unit {ids : List String} (h : d.Without d' ids) (hd : d.Keyed) (hd' : d'.Keyed) :
    d'.HasUnit id ↔ d.HasUnit id ∧ id ∉ ids := by
  rw [hd'.hasUnit_iff, hd.hasUnit_iff]
  constructor
  · rintro (hsingle | ⟨base, n, hform, rfl⟩)
    · obtain ⟨hsingle, hid⟩ := (h.single id).1 hsingle
      exact ⟨.inl hsingle, hid⟩
    · obtain ⟨hform, hid⟩ := (h.form base n).1 hform
      exact ⟨.inr ⟨base, n, hform, rfl⟩, hid⟩
  · rintro ⟨hsingle | ⟨base, n, hform, rfl⟩, hid⟩
    · exact .inl ((h.single id).2 ⟨hsingle, hid⟩)
    · exact .inr ⟨base, n, (h.form base n).2 ⟨hform, hid⟩, rfl⟩

/-! ## One removal -/

theorem get?_drop (d : Document) (id other : String) :
    (d.drop id).units.get? other = if other = id then none else d.units.get? other :=
  Dict.get?_erase d.units id other

theorem group_drop (h : (d.drop id).HasGroup base) : d.HasGroup base := by
  obtain ⟨g, hg⟩ := h
  rw [get?_drop] at hg
  split at hg
  · cases hg
  · exact ⟨g, hg⟩

/-- A single unit is removed as a whole unless its identifier is read as a form of a group. -/
theorem remove_single (h : d.HasSingle id)
    (hclear : ∀ base n, splitPluralForm id = some (base, n) → ¬ d.HasGroup base) :
    d.remove id = (d.drop id, true) := by
  obtain ⟨u, hu⟩ := h
  rw [remove_whole fun base n g hsplit hg => hclear base n hsplit ⟨g, hg⟩,
    if_pos (Dict.contains_of_get? hu)]

theorem without_drop (h : d.HasSingle id) (hkeyed : d.Keyed)
    (hclear : ∀ base n, splitPluralForm id = some (base, n) → ¬ d.HasGroup base) :
    d.Without (d.drop id) [id] where
  single other := by
    unfold HasSingle
    rw [get?_drop, List.mem_singleton]
    by_cases hother : other = id <;> simp [hother]
  form base n := by
    have hsame : (d.drop id).HasForm base n ↔ d.HasForm base n := by
      unfold HasForm
      rw [get?_drop]
      by_cases hbase : base = id
      · obtain ⟨u, hu⟩ := h
        simp [hbase, hu]
      · rw [if_neg hbase]
    rw [hsame, List.mem_singleton, iff_self_and]
    rintro hform rfl
    exact hclear base n (hkeyed.split_form hform) hform.group
  group base hbase := group_drop hbase

/-- What is left after a removal of a form. -/
theorem without_form {g : PluralGroup} {i : Nat} (hkeyed : d.Keyed)
    (hg : d.units.get? base = some (.plural g))
    (hclear : ¬ d.HasSingle (pluralFormId base i)) (hsame : ∀ other, other ≠ base →
      d'.units.get? other = d.units.get? other)
    (hbase : (d'.units.get? base = none ∧ (g.withoutForm i).forms.entries = []) ∨
      d'.units.get? base = some (.plural (g.withoutForm i))) :
    d.Without d' [pluralFormId base i] where
  single other := by
    have hsingle : d'.HasSingle other ↔ d.HasSingle other := by
      unfold HasSingle
      by_cases hother : other = base
      · subst hother
        rcases hbase with ⟨hbase, -⟩ | hbase <;> simp [hbase, hg]
      · rw [hsame other hother]
    rw [hsingle, List.mem_singleton, iff_self_and]
    rintro hsingle rfl
    exact hclear hsingle
  form other k := by
    by_cases hother : other = base
    · subst hother
      have hascending := (hkeyed.forms hg).1
      have hold : d.HasForm other k ↔ g.forms.contains k = true := by simp [HasForm, hg]
      have hnew : d'.HasForm other k ↔ (g.withoutForm i).forms.contains k = true := by
        rcases hbase with ⟨hbase, hempty⟩ | hbase
        · have hnone : (g.withoutForm i).forms.contains k = false := by
            rw [SortedMap.contains, SortedMap.get?, hempty]
            rfl
          simp [HasForm, hbase, hnone]
        · simp [HasForm, hbase]
      rw [hnew, hold, PluralGroup.contains_withoutForm hascending, Bool.and_eq_true,
        decide_eq_true_eq, List.mem_singleton, and_comm, and_congr_right_iff]
      intro _
      rw [pluralFormId_inj, and_iff_right rfl]
    · -- the identifier names no form of another group
      have hsameForm : d'.HasForm other k ↔ d.HasForm other k := by
        unfold HasForm
        rw [hsame other hother]
      rw [hsameForm, List.mem_singleton, iff_self_and]
      intro _ heq
      exact hother (pluralFormId_inj.1 heq).1
  group other hgroup := by
    by_cases hother : other = base
    · exact ⟨g, hother ▸ hg⟩
    · obtain ⟨g', hg'⟩ := hgroup
      rw [hsame other hother] at hg'
      exact ⟨g', hg'⟩

/-- A removal takes away just what its identifier names, unless this is a single unit that is read
as a form of a group. -/
theorem without_remove (hkeyed : d.Keyed) (hunit : d.HasUnit id)
    (hclear : d.HasSingle id → ∀ base n, splitPluralForm id = some (base, n) →
      ¬ d.HasGroup base) : d.Without (d.remove id).1 [id] := by
  by_cases hsingle : d.HasSingle id
  · rw [remove_single hsingle (hclear hsingle)]
    exact without_drop hsingle hkeyed (hclear hsingle)
  · obtain ⟨base, i, hform, rfl⟩ := (hkeyed.hasUnit_iff.1 hunit).resolve_left hsingle
    have hsplit := hkeyed.split_form hform
    obtain ⟨g, hg, hi⟩ := hform
    rw [remove_form hsplit hg]
    unfold removeForm
    rw [if_pos hi]
    refine without_form hkeyed hg hsingle ?_ ?_
    · intro other hother
      simp only
      split
      · rw [get?_drop, if_neg hother]
      · exact (Dict.get?_insert d.units base other _).trans (if_neg hother)
    · simp only
      split
      · next hempty =>
        refine .inl ⟨?_, List.isEmpty_iff.1 hempty⟩
        rw [get?_drop, if_pos rfl]
      · exact .inr ((Dict.get?_insert d.units base base _).trans (if_pos rfl))

/-! ## Several removals -/

theorem Sound.keyed (h : d.Sound) (hdistinct : d.units.Distinct) : d.Keyed where
  distinct := hdistinct
  ascending _ _ hg := (h.units _ _ hg).ascending
  indexes _ _ hg n u hu := (h.units _ _ hg).indexes n u hu

theorem Edited.keyed (h : d.Edited d') : d'.Keyed := h.sound.keyed h.distinct

theorem edited_refl (hread : d.AsRead) (hsound : d.Sound) (hdistinct : d.units.Distinct) :
    d.Edited d := by
  refine ⟨hsound, hdistinct, ?_⟩
  rw [eq_comm, List.filter_eq_self]
  intro n hn
  cases n with
  | foreign m => rfl
  | unit id => exact hread.contains_of_mem_body hn

theorem stands_unit (d : Document) (id : String) :
    d.stands (.unit id) = (d.units.get? id).isSome := rfl

theorem stands_drop (d : Document) (other : String) (n : BodyNode) :
    (d.drop other).stands n = (!isUnitNode other n && d.stands n) := by
  cases n with
  | foreign m => rfl
  | unit id =>
    rw [stands_unit, stands_unit, get?_drop]
    by_cases hid : id = other <;> simp [isUnitNode, hid]

theorem Edited.remove (h : d.Edited d') (id : String) : d.Edited (d'.remove id).1 := by
  have hsound := h.sound.remove id
  have hdrop (other : String) : d.Edited (d'.drop other) := by
    refine ⟨h.sound.drop other, h.distinct.erase other, ?_⟩
    have hbody : (d'.drop other).body = d'.body.filter fun n => !isUnitNode other n := rfl
    rw [hbody, h.body, List.filter_filter]
    apply List.filter_congr
    intro n _
    rw [stands_drop]
  rcases remove_cases d' id with heq | ⟨-, heq⟩ | ⟨base, i, g, -, hg, -, ⟨-, heq⟩ | heq⟩
  · rw [heq]
    exact h
  · rw [heq]
    exact hdrop id
  · rw [heq]
    exact hdrop base
  · rw [heq] at hsound ⊢
    refine ⟨hsound, h.distinct.insert _ _, ?_⟩
    refine h.body.trans (List.filter_congr ?_)
    intro n _
    cases n with
    | foreign m => rfl
    | unit k =>
      rw [stands_unit, stands_unit]
      simp only
      rw [Dict.get?_insert]
      by_cases hk : k = base <;> simp [hk, hg]

/-- No identifier names a single unit and is read as a form of a group. -/
def Clear (d : Document) (ids : List String) : Prop :=
  ∀ id ∈ ids, d.HasSingle id → ∀ base n, splitPluralForm id = some (base, n) → ¬ d.HasGroup base

section RemoveAll

variable (ids : List String)

theorem removeAll_fst (d : Document) :
    (d.removeAll ids).1 = ids.foldl (fun d id => (d.remove id).1) d :=
  foldl_change_fst (fun d id => d.remove id) ids d false

theorem removeAll_eq_of_not_changed (h : (d.removeAll ids).2 = false) :
    (d.removeAll ids).1 = d := by
  rw [removeAll_fst]
  refine (foldl_change_eq (fun d id => d.remove id) ?_ ids d false h).2
  intro d id hremove
  rcases remove_cases d id with heq | ⟨-, heq⟩ | ⟨base, i, g, -, -, -, ⟨-, heq⟩ | heq⟩
  · rw [heq]
  · rw [heq] at hremove
    cases hremove
  · rw [heq] at hremove
    cases hremove
  · rw [heq] at hremove
    cases hremove

theorem edited_removeAll (h : d.Edited d') : d.Edited (d'.removeAll ids).1 := by
  rw [removeAll_fst]
  exact List.foldlRecOn (motive := d.Edited) ids _ h fun _ h id _ => h.remove id

/-- Removals take away just what their identifiers name. -/
theorem without_removeAll (h : d.Edited d') (hunits : ∀ id ∈ ids, d'.HasUnit id)
    (hnodup : ids.Nodup) (hclear : d'.Clear ids) : d'.Without (d'.removeAll ids).1 ids := by
  rw [removeAll_fst]
  induction ids generalizing d' with
  | nil => exact .refl d'
  | cons id ids ih =>
    have hkeyed := h.keyed
    have hfirst := without_remove hkeyed (hunits id List.mem_cons_self)
      (hclear id List.mem_cons_self)
    have hedited := h.remove id
    obtain ⟨hid, hnodup⟩ := List.nodup_cons.1 hnodup
    refine hfirst.trans (ih hedited ?_ hnodup ?_)
    · intro other hother
      have hne : other ∉ [id] := by
        rintro hm
        exact hid (List.mem_singleton.1 hm ▸ hother)
      have hunit := hunits other (List.mem_cons_of_mem id hother)
      exact (hfirst.unit hkeyed hedited.keyed).2 ⟨hunit, hne⟩
    · intro other hother hsingle base n hsplit hgroup
      have hsingle' := ((hfirst.single other).1 hsingle).1
      exact hclear other (List.mem_cons_of_mem id hother) hsingle' base n hsplit
        (hfirst.group base hgroup)

end RemoveAll

end Document

end TranslationAudit.Catalog
