import TranslationAudit.Proofs.Catalog.Insertion
import TranslationAudit.Proofs.Catalog.Remove

/-! # What is found after an addition

A lookup takes the single unit of an identifier before the form that the identifier is read as. An
addition takes the form first, so it overlooks a single unit that has the identifier of a form.

* `Document.find?_single`, `Document.find?_form`: what a lookup finds.
* `Document.insert_changed_iff`: what an addition needs to be made.
* `Document.Overlooks`: the identifiers that are found and still can be added.
* `Document.LeadsTo`: catalogs that come from another one by additions and removals.
* `insert_finds`: an identifier that is found is added only where it is overlooked, and what was
  added is found unless a single unit has its identifier.
-/

namespace TranslationAudit.Catalog

namespace Document

variable {d d₀ : Document} {id base : String} {i : Nat} {u : TransUnit}

/-! ## Lookups -/

def form? (d : Document) (base : String) (n : Nat) : Option TransUnit :=
  match d.units.get? base with
  | some (.plural g) => g.forms.get? n
  | _ => none

theorem form?_plural {g : PluralGroup} (hg : d.units.get? base = some (.plural g)) (n : Nat) :
    d.form? base n = g.forms.get? n := by
  simp only [form?, hg]

theorem form?_of_not_hasGroup (h : ¬d.HasGroup base) (n : Nat) : d.form? base n = none := by
  unfold form?
  split
  · next g hg => exact absurd ⟨g, hg⟩ h
  · rfl

theorem hasForm_iff_form? {n : Nat} : d.HasForm base n ↔ (d.form? base n).isSome = true := by
  unfold HasForm form?
  split
  · next g hg => simp [hg, SortedMap.contains]
  · next hother =>
    constructor
    · rintro ⟨g, hg, -⟩
      exact absurd hg (hother g)
    · intro h
      cases h

theorem find?_single (h : d.units.get? id = some (.single u)) : d.find? id = some u := by
  simp only [find?, h]

/-- Where there is no single unit, a lookup finds the form that the identifier is read as. -/
theorem find?_form (h : ¬d.HasSingle id) :
    d.find? id = (splitPluralForm id).bind fun form => d.form? form.1 form.2 := by
  unfold find?
  split
  · next v hv => exact absurd ⟨v, hv⟩ h
  · cases splitPluralForm id <;> rfl

theorem not_hasSingle_of_find? (h : d.find? id = none) : ¬d.HasSingle id := by
  rintro ⟨v, hv⟩
  rw [find?_single hv] at h
  cases h

theorem find?_eq_none (hsingle : ¬d.HasSingle id)
    (hform : ∀ base n, splitPluralForm id = some (base, n) → d.form? base n = none) :
    d.find? id = none := by
  rw [find?_form hsingle, Option.bind_eq_none_iff]
  rintro ⟨base, n⟩ hsplit
  exact hform base n hsplit

theorem find?_congr {d' : Document}
    (hsingle : ∀ v, d'.units.get? id = some (.single v) ↔ d.units.get? id = some (.single v))
    (hform : ¬d.HasSingle id → ∀ base n, splitPluralForm id = some (base, n) →
      d'.form? base n = d.form? base n) : d'.find? id = d.find? id := by
  by_cases h : d.HasSingle id
  · obtain ⟨v, hv⟩ := h
    rw [find?_single hv, find?_single ((hsingle v).2 hv)]
  · have h' : ¬d'.HasSingle id := by
      rintro ⟨v, hv⟩
      exact h ⟨v, (hsingle v).1 hv⟩
    rw [find?_form h, find?_form h']
    cases hsplit : splitPluralForm id with
    | none => rfl
    | some form => exact hform h form.1 form.2 hsplit

/-! ## Additions -/

/-- An identifier that is read as a form needs a place for that form, and any other one a place for
a single unit or for form 0 of its group. -/
theorem insert_changed_iff : (d.insert id u).2 = true ↔
    (∃ base i, splitPluralForm id = some (base, i) ∧ ¬d.HasSingle base ∧ ¬d.HasForm base i) ∨
      (id ≠ "" ∧ splitPluralForm id = none ∧ ¬d.HasSingle id ∧ ¬d.HasForm id 0) := by
  have hform {base : String} {g : PluralGroup} {i : Nat} :
      (d.insertForm base g i u).2 = true ↔ g.forms.contains i = false := by
    rw [insertForm_eq]
    cases g.forms.contains i <;> simp
  unfold insert
  cases hid : id.isEmpty with
  | true =>
    have hempty : id = "" := by simpa using hid
    have hsplit : splitPluralForm "" = none := rfl
    simp [hempty, hsplit]
  | false =>
    have hne : id ≠ "" := by simpa using hid
    simp only [Bool.false_eq_true, if_false]
    cases hsplit : splitPluralForm id with
    | some form =>
      obtain ⟨base, i⟩ := form
      cases hbase : d.units.get? base with
      | none =>
        have hempty : ({} : PluralGroup).forms.contains i = false := rfl
        simp [HasSingle, HasForm, hbase, hform, hempty]
      | some w => cases w <;> simp [HasSingle, HasForm, hbase, hform]
    | none =>
      cases hget : d.units.get? id with
      | none => simp [HasSingle, HasForm, hget, hne]
      | some w => cases w <;> simp [HasSingle, HasForm, hget, hne, hform]

/-- The identifier that an added unit can be looked up by: that of form 0 if a group is named, and
otherwise the one that it was added under. -/
def addedId (d : Document) (id : String) : String :=
  match splitPluralForm id, d.units.get? id with
  | none, some (.plural _) => pluralFormId id 0
  | _, _ => id

/-- The form that an identifier is added as: the one that it is read as, or form 0 of the group that
it names. -/
def AddsForm (d : Document) (id base : String) (i : Nat) : Prop :=
  splitPluralForm id = some (base, i) ∨
    splitPluralForm id = none ∧ id ≠ "" ∧ d.HasGroup id ∧ base = id ∧ i = 0

theorem AddsForm.split (h : d.AddsForm id base i) :
    splitPluralForm (d.addedId id) = some (base, i) := by
  unfold addedId
  rcases h with hsplit | ⟨hsplit, hid, ⟨g, hg⟩, rfl, rfl⟩
  · rw [hsplit]
    exact hsplit
  · rw [hsplit, hg]
    exact splitPluralForm_pluralFormId hid (by decide)

/-- An added unit is the form that its identifier is added as, or a single unit whose identifier is
not read as a form. -/
theorem insert_placed (h : (d.insert id u).2 = true) :
    (∃ base i g, d.AddsForm id base i ∧
        (d.units.get? base = some (.plural g) ∨ d.units.get? base = none ∧ g = {}) ∧
        (d.insert id u).1 = { d with units := d.units.insert base (.plural (g.withForm i u)) }) ∨
      (splitPluralForm id = none ∧ d.units.get? id = none ∧
        (d.insert id u).1 = { d with units := d.units.insert id (.single u) }) := by
  have hform {base : String} {g : PluralGroup} {i : Nat} (hi : (d.insertForm base g i u).2 = true) :
      (d.insertForm base g i u).1 =
        { d with units := d.units.insert base (.plural (g.withForm i u)) } := by
    rw [insertForm_eq] at hi ⊢
    cases hcontains : g.forms.contains i with
    | true => simp [hcontains] at hi
    | false => rfl
  unfold insert at h ⊢
  cases hid : id.isEmpty with
  | true => simp [hid] at h
  | false =>
    have hne : id ≠ "" := by simpa using hid
    simp only [hid, Bool.false_eq_true, if_false] at h ⊢
    cases hsplit : splitPluralForm id with
    | some form =>
      obtain ⟨base, i⟩ := form
      simp only [hsplit] at h ⊢
      cases hbase : d.units.get? base with
      | none =>
        simp only [hbase] at h ⊢
        exact .inl ⟨base, i, {}, .inl hsplit, .inr ⟨hbase, rfl⟩, hform h⟩
      | some w =>
        cases w with
        | single v => simp [hbase] at h
        | plural g =>
          simp only [hbase] at h ⊢
          exact .inl ⟨base, i, g, .inl hsplit, .inl hbase, hform h⟩
    | none =>
      simp only [hsplit] at h ⊢
      cases hget : d.units.get? id with
      | none => exact .inr ⟨trivial, rfl, rfl⟩
      | some w =>
        cases w with
        | single v => simp [hget] at h
        | plural g =>
          simp only [hget] at h ⊢
          exact .inl ⟨id, 0, g, .inr ⟨hsplit, hne, ⟨g, hget⟩, rfl, rfl⟩, .inl hget, hform h⟩

theorem addedId_of_new (h : d.units.get? id = none) : d.addedId id = id := by
  unfold addedId
  rw [h]
  cases splitPluralForm id <;> rfl

theorem find?_insert (h : (d.insert id u).2 = true) :
    (∀ v, d.units.get? (d.addedId id) = some (.single v) →
        (d.insert id u).1.find? (d.addedId id) = some v) ∧
      (¬d.HasSingle (d.addedId id) → (d.insert id u).1.find? (d.addedId id) = some u) := by
  rcases insert_placed h with ⟨base, i, g, hform, hg, hinsert⟩ | ⟨-, hnew, hinsert⟩
  · have hnot (v : TransUnit) : d.units.get? base ≠ some (.single v) := by
      rcases hg with hg | ⟨hg, -⟩ <;> simp [hg]
    have hget : (d.insert id u).1.units.get? (d.addedId id) =
        if d.addedId id = base then some (.plural (g.withForm i u))
        else d.units.get? (d.addedId id) := by
      rw [hinsert, Dict.get?_insert]
    constructor
    · intro v hv
      have hne : d.addedId id ≠ base := fun heq => hnot v (heq ▸ hv)
      rw [if_neg hne, hv] at hget
      exact find?_single hget
    · intro hsingle
      have hstill : ¬(d.insert id u).1.HasSingle (d.addedId id) := by
        rintro ⟨v, hv⟩
        rw [hget] at hv
        split at hv
        · cases hv
        · exact hsingle ⟨v, hv⟩
      have hbase : (d.insert id u).1.units.get? base = some (.plural (g.withForm i u)) := by
        rw [hinsert, Dict.get?_insert, if_pos rfl]
      rw [find?_form hstill, hform.split]
      change (d.insert id u).1.form? base i = some u
      rw [form?_plural hbase, PluralGroup.withForm, SortedMap.get?_insert, if_pos rfl]
  · rw [addedId_of_new hnew]
    constructor
    · intro v hv
      rw [hnew] at hv
      cases hv
    · intro _
      refine find?_single ?_
      rw [hinsert, Dict.get?_insert, if_pos rfl]

/-- Whether a single unit is found by an identifier that is free as that of a form. -/
def Overlooks (d : Document) (id : String) : Prop :=
  d.HasSingle id ∧
    ∃ base i, splitPluralForm id = some (base, i) ∧ ¬d.HasSingle base ∧ ¬d.HasForm base i

theorem insert_found_iff {v : TransUnit} (h : d.find? id = some v) :
    (d.insert id u).2 = true ↔ d.Overlooks id := by
  rw [insert_changed_iff, Overlooks]
  by_cases hsingle : d.HasSingle id
  · simp [hsingle]
  · rw [find?_form hsingle] at h
    obtain ⟨⟨base, i⟩, hsplit, hform⟩ := Option.bind_eq_some_iff.1 h
    have hhas : d.HasForm base i := by
      rw [hasForm_iff_form?, hform]
      rfl
    simp [hsingle, hsplit, hhas]

/-! ## Any number of changes -/

/-- Catalogs that come from another one by any additions and removals. -/
inductive LeadsTo (d₀ : Document) : Document → Prop
  | refl : LeadsTo d₀ d₀
  | inserted {d : Document} (id : String) (u : TransUnit) (h : LeadsTo d₀ d) :
      LeadsTo d₀ (d.insert id u).1
  | removed {d : Document} (id : String) (h : LeadsTo d₀ d) : LeadsTo d₀ (d.remove id).1

/-- No addition makes a single unit that is read as a form. -/
theorem hasSingle_of_insert (hsplit : splitPluralForm base ≠ none)
    (h : (d.insert id u).1.HasSingle base) : d.HasSingle base := by
  cases hchanged : (d.insert id u).2 with
  | false => rwa [insert_eq_of_not_changed hchanged] at h
  | true =>
    obtain ⟨v, hv⟩ := h
    rcases insert_placed hchanged with ⟨other, i, g, -, -, hinsert⟩ | ⟨hnone, -, hinsert⟩
    · rw [hinsert, Dict.get?_insert] at hv
      split at hv
      · cases hv
      · exact ⟨v, hv⟩
    · have hne : base ≠ id := fun heq => hsplit (heq ▸ hnone)
      rw [hinsert, Dict.get?_insert, if_neg hne] at hv
      exact ⟨v, hv⟩

theorem hasSingle_of_remove (h : (d.remove id).1.HasSingle base) : d.HasSingle base := by
  have hdrop {other : String} (h : (d.drop other).HasSingle base) : d.HasSingle base := by
    obtain ⟨v, hv⟩ := h
    rw [get?_drop] at hv
    split at hv
    · cases hv
    · exact ⟨v, hv⟩
  rcases remove_cases d id with heq | ⟨-, heq⟩ | ⟨other, i, g, -, -, -, ⟨-, heq⟩ | heq⟩
  · rwa [heq] at h
  · rw [heq] at h
    exact hdrop h
  · rw [heq] at h
    exact hdrop h
  · rw [heq] at h
    obtain ⟨v, hv⟩ := h
    simp only [Dict.get?_insert] at hv
    split at hv
    · cases hv
    · exact ⟨v, hv⟩

/-- Single units that are read as forms were there from the beginning. -/
theorem LeadsTo.hasSingle (h : LeadsTo d₀ d) (hsplit : splitPluralForm base ≠ none)
    (hsingle : d.HasSingle base) : d₀.HasSingle base := by
  induction h with
  | refl => exact hsingle
  | inserted id u _ ih => exact ih (hasSingle_of_insert hsplit hsingle)
  | removed id _ ih => exact ih (hasSingle_of_remove hsingle)

end Document

/-- What is found is added again only where it is a single unit that is overlooked, and an added
unit is found unless a single unit has the identifier of its form. Such single units come from the
beginning, so after any changes of a catalog without them each identifier is there once. -/
theorem insert_finds {d₀ d : Document} (hd : d₀.LeadsTo d) (id : String) (u : TransUnit) :
    (∀ v, d.find? id = some v → ((d.insert id u).2 = true ↔ d.Overlooks id)) ∧
      ((d.insert id u).2 = true →
        (∀ v, d.units.get? (d.addedId id) = some (.single v) →
          (d.insert id u).1.find? (d.addedId id) = some v) ∧
        (¬d.HasSingle (d.addedId id) → (d.insert id u).1.find? (d.addedId id) = some u)) ∧
      ((∀ other, d₀.HasSingle other → splitPluralForm other = none) →
        ((∃ v, d.find? id = some v) → (d.insert id u).2 = false) ∧
        ((d.insert id u).2 = true → (d.insert id u).1.find? (d.addedId id) = some u)) := by
  refine ⟨fun v => Document.insert_found_iff, Document.find?_insert, fun hplain => ?_⟩
  have hforms {other base : String} {i : Nat} (hsplit : splitPluralForm other = some (base, i)) :
      ¬d.HasSingle other := by
    intro hsingle
    have hnone := hplain other (hd.hasSingle (by simp [hsplit]) hsingle)
    rw [hsplit] at hnone
    cases hnone
  constructor
  · rintro ⟨v, hv⟩
    rw [← Bool.not_eq_true, Document.insert_found_iff hv]
    rintro ⟨hsingle, base, i, hsplit, -⟩
    exact hforms hsplit hsingle
  · intro hchanged
    refine (Document.find?_insert hchanged).2 ?_
    rcases Document.insert_placed hchanged with ⟨base, i, g, hform, -, -⟩ | ⟨-, hnew, -⟩
    · exact hforms hform.split
    · rw [Document.addedId_of_new hnew]
      rintro ⟨v, hv⟩
      rw [hnew] at hv
      cases hv

/-- A unit of the file has the identifier of a form, which is added again and then not found. In a
file without such units a form is added once and found. -/
theorem insert_finds_overlooked :
    (∃ d : Document, d.LeadsTo d ∧ d.Overlooks "a[0]" ∧ (d.insert "a[0]" {}).2 = true ∧
      (d.insert "a[0]" {}).1.find? "a[0]" = d.find? "a[0]") ∧
    ∃ d₀ d : Document, d₀.LeadsTo d ∧ (d.insert "a" {}).2 = true ∧
      (d.insert "a" {}).1.find? "a[0]" = some {} ∧ (d.insert "b" {}).2 = false := by
  constructor
  · let text := "<x><file><body><trans-unit id='a[0]'/></body></file></x>"
    have hreadable : Document.isReadable text = true := by decide +kernel
    obtain ⟨d, hd, -⟩ := Document.exists_parse "app.xlf" hreadable
    have hread : (Document.parse "app.xlf" text).toOption.map (fun d =>
        ((d.find? "a[0]").isSome, d.addedId "a[0]", (d.insert "a[0]" {}).2)) =
          some (true, "a[0]", true) := by decide +kernel
    rw [hd] at hread
    obtain ⟨hfound, hread⟩ := Prod.mk.inj (Option.some.inj hread)
    obtain ⟨hadded, hchanged⟩ := Prod.mk.inj hread
    obtain ⟨v, hv⟩ := Option.isSome_iff_exists.1 hfound
    obtain ⟨hagain, hfinds, -⟩ := insert_finds (.refl : d.LeadsTo d) "a[0]" {}
    have hoverlooks := (hagain v hv).1 hchanged
    obtain ⟨w, hw⟩ := hoverlooks.1
    have hkept := (hfinds hchanged).1 w (hadded ▸ hw)
    rw [hadded] at hkept
    exact ⟨d, .refl, hoverlooks, hchanged, hkept.trans (Document.find?_single hw).symm⟩
  · let text := "<x><file><body><trans-unit id='b'/><trans-unit id='c'/>" ++
      "<group id='a' restype='x-gettext-plurals'><trans-unit id='a[1]'/></group></body></file></x>"
    have hreadable : Document.isReadable text = true := by decide +kernel
    obtain ⟨d, hd, -⟩ := Document.exists_parse "app.xlf" hreadable
    have hread : (Document.parse "app.xlf" text).toOption.map (fun d =>
        (d.units.keys.all fun id => splitPluralForm id = none,
          (d.remove "c").1.addedId "a", ((d.remove "c").1.insert "a" {}).2,
          ((d.remove "c").1.find? "b").isSome)) =
          some (true, "a[0]", true, true) := by decide +kernel
    rw [hd] at hread
    obtain ⟨hkeys, hread⟩ := Prod.mk.inj (Option.some.inj hread)
    obtain ⟨hadded, hread⟩ := Prod.mk.inj hread
    obtain ⟨hchanged, hfound⟩ := Prod.mk.inj hread
    have hplain : ∀ other, d.HasSingle other → splitPluralForm other = none := by
      rintro other ⟨v, hv⟩
      have hkey : other ∈ d.units.keys := List.mem_map.2 ⟨_, Dict.mem_of_get? hv, rfl⟩
      exact of_decide_eq_true (List.all_eq_true.1 hkeys other hkey)
    have hderived : d.LeadsTo (d.remove "c").1 := .removed "c" .refl
    obtain ⟨-, -, hnew⟩ := insert_finds hderived "a" {}
    obtain ⟨-, -, htaken⟩ := insert_finds hderived "b" {}
    have hadds := (hnew hplain).2 hchanged
    rw [hadded] at hadds
    exact ⟨d, _, hderived, hchanged, hadds, (htaken hplain).1 (Option.isSome_iff_exists.1 hfound)⟩

end TranslationAudit.Catalog
