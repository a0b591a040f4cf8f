import TranslationAudit.Catalog.Writer
import TranslationAudit.Proofs.Catalog.Sound

/-! # Changed catalogs

* `Document.Sound.insert`, `Document.Sound.remove`: a changed catalog can be written.
* `Document.Leaves`: a change leaves all units and forms but those of given identifiers.
* `insertAll_leaves`, `removeAll_leaves`: only what was deleted is missing after several changes.
-/

namespace TranslationAudit.Catalog

open Markup (Node)

/-! ## Changed catalogs can be written -/

theorem Addition.sound_unit (settings : WriterSettings) (writesTarget : Bool) (a : Addition) :
    (a.unit settings writesTarget).Sound := by
  rw [unit]
  cases writesTarget with
  | true =>
    rw [if_pos rfl]
    refine ⟨.nil, .nil, ⟨?_, ?_⟩, by simp [translatedUnit], by simp [translatedUnit]⟩
    · rw [translatedUnit, qualifierAttributes]
      cases (a.state settings).qualifier with
      | none => exact .nil
      | some q => exact attributesNamed_of_names ["state-qualifier"] rfl (by decide)
    · rw [translatedUnit, qualifierAttributes]
      cases (a.state settings).qualifier <;> simp
  | false =>
    rw [if_neg (by simp)]
    refine ⟨.nil, ?_, .nil, by simp [sourceUnit], by simp [sourceUnit]⟩
    rw [sourceUnit, qualifierAttributes]
    cases (a.state settings).state with
    | none =>
      cases (a.state settings).qualifier with
      | none => exact .nil
      | some q => exact attributesNamed_of_names ["state-qualifier"] rfl (by decide)
    | some s =>
      cases (a.state settings).qualifier with
      | none => exact attributesNamed_of_names ["state"] rfl (by decide)
      | some q => exact attributesNamed_of_names ["state", "state-qualifier"] rfl (by decide)

namespace PluralGroup

variable {id : String} {g : PluralGroup}

/-- A group with one more form. -/
def withForm (g : PluralGroup) (i : Nat) (u : TransUnit) : PluralGroup :=
  { g with forms := g.forms.insert i u, children := g.children ++ [.form i] }

/-- A group with one form less. -/
def withoutForm (g : PluralGroup) (i : Nat) : PluralGroup :=
  { g with
    forms := ⟨g.forms.entries.filter fun e => e.1 ≠ i⟩
    children := g.children.filter fun c => !Document.isFormChild i c }

theorem Sound.empty (id : String) : ({} : PluralGroup).Sound id where
  restype := rfl
  attributes := .nil
  forms := by simp [SortedMap.empty]
  indexes := by simp [SortedMap.empty]
  ascending := SortedMap.ascending_empty
  solid := by simp
  foreign := by simp

theorem foreign_mem_withForm {i : Nat} {u : TransUnit} {n : Node} :
    .foreign n ∈ (g.withForm i u).children ↔ .foreign n ∈ g.children := by
  simp [withForm]

theorem foreign_mem_withoutForm {i : Nat} {n : Node} :
    .foreign n ∈ (g.withoutForm i).children ↔ .foreign n ∈ g.children := by
  rw [withoutForm, List.mem_filter]
  simp [Document.isFormChild]

theorem Sound.withForm (h : g.Sound id) {u : TransUnit} (hu : u.Sound) {i : Nat}
    (hid : id ≠ "") (hi : i < formLimit) : (g.withForm i u).Sound id := by
  refine ⟨h.restype, h.attributes, ?_, ?_, h.ascending.insert i u,
    fun n hn => h.solid n (foreign_mem_withForm.1 hn),
    fun n hn => h.foreign n (foreign_mem_withForm.1 hn)⟩
  · intro j v hv
    rw [PluralGroup.withForm, SortedMap.mem_entries_insert h.ascending] at hv
    split at hv
    · exact hv ▸ hu
    · exact h.forms j v hv
  · intro j v hv
    rw [PluralGroup.withForm, SortedMap.mem_entries_insert h.ascending] at hv
    split at hv
    · next hj => exact hj ▸ ⟨hid, hi⟩
    · exact h.indexes j v hv

theorem Sound.withoutForm (h : g.Sound id) (i : Nat) : (g.withoutForm i).Sound id where
  restype := h.restype
  attributes := h.attributes
  forms j v hv := h.forms j v (List.mem_of_mem_filter hv)
  indexes j v hv := h.indexes j v (List.mem_of_mem_filter hv)
  ascending := h.ascending.filter _
  solid n hn := h.solid n (foreign_mem_withoutForm.1 hn)
  foreign n hn := h.foreign n (foreign_mem_withoutForm.1 hn)

end PluralGroup

namespace Document

variable {d : Document}

/-! ## What a change can do -/

/-- Where an identifier is taken nothing is added, and otherwise a form or a single unit. -/
theorem insert_cases (d : Document) (id : String) (u : TransUnit) :
    d.insert id u = (d, false) ∨
      (∃ base g i, base ≠ "" ∧ i < formLimit ∧
        (d.units.get? base = some (.plural g) ∨ d.units.get? base = none ∧ g = {}) ∧
        g.forms.contains i = false ∧
        d.insert id u =
          ({ d with units := d.units.insert base (.plural (g.withForm i u)) }, true)) ∨
      (id ≠ "" ∧ d.units.get? id = none ∧
        d.insert id u = ({ d with units := d.units.insert id (.single u) }, true)) := by
  -- a form enters a group that is there or a new one, in the same way
  have hform (base : String) (g : PluralGroup) (i : Nat) : d.insertForm base g i u =
      if g.forms.contains i then (d, false)
      else ({ d with units := d.units.insert base (.plural (g.withForm i u)) }, true) := by
    rw [insertForm, PluralGroup.insertForm]
    cases g.forms.contains i <;> rfl
  have hinserted {base : String} {g : PluralGroup} {i : Nat} (hbase : base ≠ "")
      (hi : i < formLimit)
      (hg : d.units.get? base = some (.plural g) ∨ d.units.get? base = none ∧ g = {}) :
      d.insertForm base g i u = (d, false) ∨
        ∃ base' g' i', base' ≠ "" ∧ i' < formLimit ∧
          (d.units.get? base' = some (.plural g') ∨ d.units.get? base' = none ∧ g' = {}) ∧
          g'.forms.contains i' = false ∧
          d.insertForm base g i u =
            ({ d with units := d.units.insert base' (.plural (g'.withForm i' u)) }, true) := by
    rw [hform]
    cases hcontains : g.forms.contains i with
    | true => exact .inl rfl
    | false => exact .inr ⟨base, g, i, hbase, hi, hg, hcontains, rfl⟩
  rw [Document.insert]
  split
  · exact .inl rfl
  · next hid =>
    have hid : id ≠ "" := by simpa using hid
    split
    · next base i hsplit =>
      obtain ⟨hbase, hi⟩ := splitPluralForm_eq_some hsplit
      split
      · next g hg => exact (hinserted hbase hi (.inl hg)).imp_right .inl
      · exact .inl rfl
      · next hnone => exact (hinserted hbase hi (.inr ⟨hnone, rfl⟩)).imp_right .inl
    · split
      · next g hg => exact (hinserted hid (by decide) (.inl hg)).imp_right .inl
      · exact .inl rfl
      · next hnone => exact .inr (.inr ⟨hid, hnone, rfl⟩)

theorem removeForm_eq (d : Document) (base : String) (g : PluralGroup) (i : Nat) :
    d.removeForm base g i =
      if g.forms.contains i then
        if (g.withoutForm i).forms.entries.isEmpty then (d.drop base, true)
        else ({ d with units := d.units.insert base (.plural (g.withoutForm i)) }, true)
      else (d, false) := rfl

/-- What is read as a form of a group that is there is removed as that form. -/
theorem remove_form {id base : String} {i : Nat} {g : PluralGroup}
    (hsplit : splitPluralForm id = some (base, i)) (hg : d.units.get? base = some (.plural g)) :
    d.remove id = d.removeForm base g i := by
  simp only [remove, hsplit, hg]

/-- What is not read as a form of a group that is there is removed as a whole. -/
theorem remove_whole {id : String} (h : ∀ base i g, splitPluralForm id = some (base, i) →
      d.units.get? base ≠ some (.plural g)) :
    d.remove id = if d.units.contains id then (d.drop id, true) else (d, false) := by
  cases hsplit : splitPluralForm id with
  | none => simp only [remove, hsplit]
  | some form =>
    obtain ⟨base, i⟩ := form
    simp only [remove, hsplit]
    split
    · next g hg => exact absurd hg (h base i g hsplit)
    · rfl

/-- What is removed is nothing, all that an identifier names, or one form, and its group with the
last one. -/
theorem remove_cases (d : Document) (id : String) :
    d.remove id = (d, false) ∨
      ((∀ base i g, splitPluralForm id = some (base, i) →
          d.units.get? base ≠ some (.plural g)) ∧ d.remove id = (d.drop id, true)) ∨
      ∃ base i g, splitPluralForm id = some (base, i) ∧ d.units.get? base = some (.plural g) ∧
        g.forms.contains i = true ∧
        (((g.withoutForm i).forms.entries = [] ∧ d.remove id = (d.drop base, true)) ∨
          d.remove id =
            ({ d with units := d.units.insert base (.plural (g.withoutForm i)) }, true)) := by
  by_cases h : ∃ base i g, splitPluralForm id = some (base, i) ∧
      d.units.get? base = some (.plural g)
  · obtain ⟨base, i, g, hsplit, hg⟩ := h
    rw [remove_form hsplit hg, removeForm_eq]
    cases hcontains : g.forms.contains i with
    | false => exact .inl rfl
    | true =>
      refine .inr (.inr ⟨base, i, g, hsplit, hg, hcontains, ?_⟩)
      cases hempty : (g.withoutForm i).forms.entries.isEmpty with
      | true => exact .inl ⟨List.isEmpty_iff.1 hempty, rfl⟩
      | false => exact .inr rfl
  · have hwhole : ∀ base i g, splitPluralForm id = some (base, i) →
        d.units.get? base ≠ some (.plural g) :=
      fun base i g hsplit hg => h ⟨base, i, g, hsplit, hg⟩
    rw [remove_whole hwhole]
    split
    · exact .inr (.inl ⟨hwhole, rfl⟩)
    · exact .inl rfl

/-! ## Changed catalogs can be written -/

theorem Sound.insertUnit (h : d.Sound) {id : String} {u : CatalogUnit} (hu : u.Sound id) :
    ({ d with units := d.units.insert id u } : Document).Sound where
  fileAttributes := h.fileAttributes
  fileChildren := h.fileChildren
  solid := h.solid
  units j v hv := by
    rcases Dict.mem_entries_insert hv with heq | hv
    · cases heq
      exact hu
    · exact h.units j v hv

theorem Sound.drop (h : d.Sound) (id : String) : (d.drop id).Sound where
  fileAttributes := h.fileAttributes
  fileChildren := h.fileChildren
  solid n hn := h.solid n (List.mem_of_mem_filter hn)
  units j v hv := h.units j v (List.mem_of_mem_filter hv)

theorem Sound.group (h : d.Sound) {id : String} {g : PluralGroup}
    (hg : d.units.get? id = some (.plural g)) : g.Sound id :=
  h.units id _ (Dict.mem_of_get? hg)

theorem Sound.insert (h : d.Sound) (id : String) {u : TransUnit} (hu : u.Sound) :
    (d.insert id u).1.Sound := by
  rcases insert_cases d id u with heq | ⟨base, g, i, hbase, hi, hg, -, heq⟩ | ⟨-, -, heq⟩
  · rw [heq]
    exact h
  · have hgroup : g.Sound base := by
      rcases hg with hg | ⟨-, rfl⟩
      · exact h.group hg
      · exact .empty base
    rw [heq]
    exact h.insertUnit (u := .plural _) (hgroup.withForm hu hbase hi)
  · rw [heq]
    exact h.insertUnit (u := .single u) hu

theorem Sound.remove (h : d.Sound) (id : String) : (d.remove id).1.Sound := by
  rcases remove_cases d id with heq | ⟨-, heq⟩ | ⟨base, i, g, -, hg, -, ⟨-, heq⟩ | heq⟩
  · rw [heq]
    exact h
  · rw [heq]
    exact h.drop id
  · rw [heq]
    exact h.drop base
  · rw [heq]
    exact h.insertUnit (u := .plural _) ((h.group hg).withoutForm i)

end Document

/-! ## What a change leaves -/

/-- Whether a form is among given identifiers. -/
def FormDeleted (deleted : List String) (base : String) (i : Nat) : Prop :=
  ∃ id ∈ deleted, splitPluralForm id = some (base, i)

namespace PluralGroup

/-- A group of which forms are left once given identifiers are deleted, or of which none is
deleted. -/
def Outlives (deleted : List String) (base : String) (g : PluralGroup) : Prop :=
  (∃ i, g.forms.contains i = true ∧ ¬FormDeleted deleted base i) ∨
    ∀ i, ¬FormDeleted deleted base i

/-- A change of a group that leaves all but the forms among given identifiers. -/
structure Leaves (deleted : List String) (base : String) (g g' : PluralGroup) : Prop where
  forms : ∀ i u, g.forms.get? i = some u → ¬FormDeleted deleted base i →
    g'.forms.get? i = some u
  foreign : ∀ n, .foreign n ∈ g.children → .foreign n ∈ g'.children

variable {deleted : List String} {base : String} {g : PluralGroup}

theorem leaves_withForm {i : Nat} (hi : g.forms.contains i = false) (u : TransUnit) :
    g.Leaves deleted base (g.withForm i u) where
  forms j v hv _ := by
    have hj : j ≠ i := by
      rintro rfl
      rw [SortedMap.contains_of_get? hv] at hi
      cases hi
    rw [withForm, SortedMap.get?_insert, if_neg hj, hv]
  foreign _ := foreign_mem_withForm.2

theorem leaves_withoutForm (h : g.forms.Ascending) {i : Nat} (hi : FormDeleted deleted base i) :
    g.Leaves deleted base (g.withoutForm i) where
  forms j v hv hj := by
    have hne : j ≠ i := fun heq => hj (heq ▸ hi)
    rw [withoutForm, SortedMap.get?_filter_ne h, if_neg hne, hv]
  foreign _ := foreign_mem_withoutForm.2

end PluralGroup

namespace Document

/-- A change of a catalog that leaves all but the units and forms among given identifiers. -/
structure Leaves (deleted : List String) (d d' : Document) : Prop where
  fileChildren : d'.fileChildren = d.fileChildren
  foreign : ∀ n, .foreign n ∈ d.body → .foreign n ∈ d'.body
  single : ∀ id u, d.units.get? id = some (.single u) → id ∉ deleted →
    d'.units.get? id = some (.single u)
  plural : ∀ id g, d.units.get? id = some (.plural g) → id ∉ deleted →
    g.Outlives deleted id → ∃ g', d'.units.get? id = some (.plural g') ∧ g.Leaves deleted id g'

namespace Leaves

variable {deleted : List String} {d d' d'' : Document}

theorem refl (deleted : List String) (d : Document) : d.Leaves deleted d where
  fileChildren := rfl
  foreign _ hn := hn
  single _ _ hu _ := hu
  plural _ g hg _ _ := ⟨g, hg, fun _ _ hu _ => hu, fun _ hn => hn⟩

theorem trans (h : d.Leaves deleted d') (h' : d'.Leaves deleted d'') : d.Leaves deleted d'' where
  fileChildren := h'.fileChildren.trans h.fileChildren
  foreign n hn := h'.foreign n (h.foreign n hn)
  single id u hu hid := h'.single id u (h.single id u hu hid) hid
  plural id g hg hid houtlives := by
    obtain ⟨g', hg', hleaves⟩ := h.plural id g hg hid houtlives
    have houtlives' : g'.Outlives deleted id := by
      refine houtlives.imp_left ?_
      rintro ⟨i, hi, hleft⟩
      obtain ⟨u, hu⟩ := Option.isSome_iff_exists.1 hi
      refine ⟨i, ?_, hleft⟩
      rw [SortedMap.contains, hleaves.forms i u hu hleft]
      rfl
    obtain ⟨g'', hg'', hleaves'⟩ := h'.plural id g' hg' hid houtlives'
    refine ⟨g'', hg'', ?_, fun n hn => hleaves'.foreign n (hleaves.foreign n hn)⟩
    intro i u hu hi
    exact hleaves'.forms i u (hleaves.forms i u hu hi) hi

/-- What is put at an identifier leaves the rest, and leaves a group if it has grown from it. -/
theorem insertUnit {base : String} {w : CatalogUnit}
    (hsingle : ∀ u, d.units.get? base = some (.single u) → base ∈ deleted)
    (hplural : ∀ g, d.units.get? base = some (.plural g) →
      ∃ g', w = .plural g' ∧ g.Leaves deleted base g') :
    d.Leaves deleted { d with units := d.units.insert base w } where
  fileChildren := rfl
  foreign _ hn := hn
  single id u hu hid := by
    have hne : id ≠ base := by
      rintro rfl
      exact hid (hsingle u hu)
    rw [Dict.get?_insert, if_neg hne, hu]
  plural id g hg _ _ := by
    rw [Dict.get?_insert]
    by_cases heq : id = base
    · obtain ⟨g', rfl, hleaves⟩ := hplural g (heq ▸ hg)
      exact ⟨g', by rw [if_pos heq], heq ▸ hleaves⟩
    · exact ⟨g, by rw [if_neg heq, hg], fun _ _ hu _ => hu, fun _ hn => hn⟩

theorem drop {base : String}
    (hbase : base ∈ deleted ∨
      ∃ g, d.units.get? base = some (.plural g) ∧ ¬g.Outlives deleted base) :
    d.Leaves deleted (d.drop base) where
  fileChildren := rfl
  foreign n hn := by
    rw [Document.drop, List.mem_filter]
    exact ⟨hn, rfl⟩
  single id u hu hid := by
    have hne : id ≠ base := by
      rintro rfl
      rcases hbase with hbase | ⟨g, hg, -⟩
      · exact hid hbase
      · rw [hg] at hu
        cases hu
    rw [Document.drop, Dict.get?_erase, if_neg hne, hu]
  plural id g hg hid houtlives := by
    have hne : id ≠ base := by
      rintro rfl
      rcases hbase with hbase | ⟨g', hg', hgone⟩
      · exact hid hbase
      · rw [hg'] at hg
        cases hg
        exact hgone houtlives
    refine ⟨g, ?_, fun _ _ hu _ => hu, fun _ hn => hn⟩
    rw [Document.drop, Dict.get?_erase, if_neg hne, hg]

theorem insert (deleted : List String) (d : Document) (id : String) (u : TransUnit) :
    d.Leaves deleted (d.insert id u).1 := by
  rcases insert_cases d id u with heq | ⟨base, g, i, -, -, hg, hi, heq⟩ | ⟨-, hnone, heq⟩
  · rw [heq]
    exact refl deleted d
  · rw [heq]
    refine insertUnit ?_ ?_
    · intro v hv
      rcases hg with hg | ⟨hg, -⟩ <;> rw [hg] at hv <;> cases hv
    · intro g' hg'
      rcases hg with hg | ⟨hg, -⟩ <;> rw [hg] at hg' <;> cases hg'
      exact ⟨_, rfl, PluralGroup.leaves_withForm hi u⟩
  · rw [heq]
    refine insertUnit ?_ ?_ <;> simp [hnone]

theorem remove (h : d.Sound) {id : String} (hid : id ∈ deleted) :
    d.Leaves deleted (d.remove id).1 := by
  rcases remove_cases d id with heq | ⟨-, heq⟩ | ⟨base, i, g, hsplit, hg, -, hremove⟩
  · rw [heq]
    exact refl deleted d
  · rw [heq]
    exact drop (.inl hid)
  · have hdeleted : FormDeleted deleted base i := ⟨id, hid, hsplit⟩
    have hascending := (h.group hg).ascending
    rcases hremove with ⟨hempty, heq⟩ | heq
    · rw [heq]
      refine drop (.inr ⟨g, hg, ?_⟩)
      rintro (⟨j, hj, hleft⟩ | hnone)
      · obtain ⟨u, hu⟩ := Option.isSome_iff_exists.1 hj
        have hu' := (PluralGroup.leaves_withoutForm hascending hdeleted).forms j u hu hleft
        rw [SortedMap.get?, hempty] at hu'
        cases hu'
      · exact hnone i hdeleted
    · rw [heq]
      refine insertUnit ?_ ?_
      · intro u hu
        rw [hg] at hu
        cases hu
      · intro g' hg'
        rw [hg] at hg'
        cases hg'
        exact ⟨_, rfl, PluralGroup.leaves_withoutForm hascending hdeleted⟩

end Leaves

end Document

/-! ## Several changes -/

theorem insertAll_leaves {d : Document} (h : d.Sound) (settings : WriterSettings)
    (writesTarget : Bool) (additions : List Addition) :
    (d.insertAll settings writesTarget additions).1.Sound ∧
      d.Leaves [] (d.insertAll settings writesTarget additions).1 := by
  rw [Document.insertAll]
  -- each addition leaves what the ones before it left
  refine List.foldlRecOn (motive := fun s : Document × Bool => s.1.Sound ∧ d.Leaves [] s.1)
    additions _ ⟨h, .refl [] d⟩ ?_
  rintro ⟨d', changed⟩ ⟨hsound, hleaves⟩ a -
  exact ⟨hsound.insert a.key.id (a.sound_unit settings writesTarget),
    hleaves.trans (.insert [] d' a.key.id _)⟩

theorem removeAll_leaves {d : Document} (h : d.Sound) (ids : List String) :
    (d.removeAll ids).1.Sound ∧ d.Leaves ids (d.removeAll ids).1 := by
  rw [Document.removeAll]
  refine List.foldlRecOn (motive := fun s : Document × Bool => s.1.Sound ∧ d.Leaves ids s.1)
    ids _ ⟨h, .refl ids d⟩ ?_
  rintro ⟨d', changed⟩ ⟨hsound, hleaves⟩ id hid
  exact ⟨hsound.remove id, hleaves.trans (.remove hsound hid)⟩

end TranslationAudit.Catalog
