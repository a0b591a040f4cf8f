import TranslationAudit.Proofs.Catalog.Reread

/-! # Units that were added

* `Document.Grows`: a change after which all single units and forms are still there.
* `Document.Supplies`: catalogs that have what an identifier is added as.
* `Document.grows_insertAll`, `Document.supplies_insertAll`: several additions lose nothing and
  supply their identifiers.
* `Document.extended_insertAll`: they leave the body and all identifiers as they were.
-/

namespace TranslationAudit.Catalog

namespace Document

variable {d d' d'' : Document}

/-! ## Several changes in a row -/

section Changes

variable {α : Type} (change : Document → α → Document × Bool)

theorem foldl_change_fst (as : List α) (d : Document) (changed : Bool) :
    (as.foldl (fun (d, changed) a =>
      let (d, now) := change d a
      (d, changed || now)) (d, changed)).1 = as.foldl (fun d a => (change d a).1) d := by
  induction as generalizing d changed with
  | nil => rfl
  | cons a as ih => exact ih (change d a).1 (changed || (change d a).2)

variable (hchange : ∀ d a, (change d a).2 = false → (change d a).1 = d)
include hchange

/-- What did not change stays as it was. -/
theorem foldl_change_eq (as : List α) (d : Document) (changed : Bool)
    (h : (as.foldl (fun (d, changed) a =>
      let (d, now) := change d a
      (d, changed || now)) (d, changed)).2 = false) :
    changed = false ∧ as.foldl (fun d a => (change d a).1) d = d := by
  induction as generalizing d changed with
  | nil => exact ⟨h, rfl⟩
  | cons a as ih =>
    obtain ⟨hor, hrest⟩ := ih (change d a).1 (changed || (change d a).2) h
    obtain ⟨hchanged, hnow⟩ := Bool.or_eq_false_iff.1 hor
    refine ⟨hchanged, ?_⟩
    rw [List.foldl_cons, hrest]
    exact hchange d a hnow

end Changes

/-! ## Growing -/

/-- The single units and forms of a catalog are in another one. -/
structure Grows (d d' : Document) : Prop where
  single : ∀ id, d.HasSingle id → d'.HasSingle id
  form : ∀ base n, d.HasForm base n → d'.HasForm base n

theorem Grows.refl (d : Document) : d.Grows d := ⟨fun _ h => h, fun _ _ h => h⟩

theorem Grows.trans (h : d.Grows d') (h' : d'.Grows d'') : d.Grows d'' where
  single id hid := h'.single id (h.single id hid)
  form base n hn := h'.form base n (h.form base n hn)

theorem contains_withForm (g : PluralGroup) (i n : Nat) (u : TransUnit) :
    (g.withForm i u).forms.contains n = (decide (n = i) || g.forms.contains n) :=
  contains_insert_form g.forms i n u

theorem grows_insert (d : Document) (id : String) (u : TransUnit) :
    d.Grows (d.insert id u).1 := by
  rcases insert_cases d id u with heq | ⟨base, g, i, -, -, hg, -, heq⟩ | ⟨-, hnone, heq⟩
  · rw [heq]
    exact .refl d
  · rw [heq]
    refine ⟨?_, ?_⟩
    · rintro other ⟨v, hv⟩
      have hne : other ≠ base := by
        rintro rfl
        rcases hg with hg | ⟨hg, -⟩ <;> rw [hg] at hv <;> cases hv
      exact ⟨v, by rw [Dict.get?_insert, if_neg hne, hv]⟩
    · rintro other n ⟨g', hg', hn⟩
      by_cases hother : other = base
      · subst hother
        rcases hg with hg | ⟨hg, -⟩ <;> rw [hg] at hg' <;> cases hg'
        refine ⟨g.withForm i u, by rw [Dict.get?_insert, if_pos rfl], ?_⟩
        rw [contains_withForm, hn, Bool.or_true]
      · exact ⟨g', by rw [Dict.get?_insert, if_neg hother, hg'], hn⟩
  · rw [heq]
    have hne {other : String} {w : CatalogUnit} (hw : d.units.get? other = some w) :
        other ≠ id := by
      rintro rfl
      rw [hnone] at hw
      cases hw
    refine ⟨?_, ?_⟩
    · rintro other ⟨v, hv⟩
      exact ⟨v, by rw [Dict.get?_insert, if_neg (hne hv), hv]⟩
    · rintro other n ⟨g, hg, hn⟩
      exact ⟨g, by rw [Dict.get?_insert, if_neg (hne hg), hg], hn⟩

/-! ## Supplied identifiers -/

/-- Catalogs that have what an identifier is added as, or a single unit in the way of it. -/
structure Supplies (d : Document) (id : String) : Prop where
  plain : splitPluralForm id = none → d.HasSingle id ∨ d.HasForm id 0
  form : ∀ base n, splitPluralForm id = some (base, n) → d.HasForm base n ∨ d.HasSingle base

theorem Supplies.grow {id : String} (h : d.Supplies id) (hgrows : d.Grows d') :
    d'.Supplies id where
  plain hsplit := (h.plain hsplit).imp (hgrows.single _) (hgrows.form _ _)
  form base n hsplit := (h.form base n hsplit).imp (hgrows.form _ _) (hgrows.single _)

theorem hasForm_insertForm {base : String} {g : PluralGroup} {i : Nat} {u : TransUnit}
    (hg : d.units.get? base = some (.plural g) ∨ g.forms.contains i = false) :
    (d.insertForm base g i u).1.HasForm base i := by
  unfold insertForm PluralGroup.insertForm
  by_cases hi : g.forms.contains i = true
  · rw [if_pos hi]
    rcases hg with hg | hnot
    · exact ⟨g, hg, hi⟩
    · rw [hi] at hnot
      cases hnot
  · rw [if_neg hi]
    refine ⟨g.withForm i u, ?_, ?_⟩
    · exact (Dict.get?_insert d.units base base _).trans (if_pos rfl)
    · rw [contains_withForm]
      simp

theorem supplies_insert {id : String} (hid : id ≠ "") (u : TransUnit) :
    (d.insert id u).1.Supplies id := by
  have hempty : id.isEmpty = false := by simpa using hid
  unfold insert
  rw [hempty]
  simp only [Bool.false_eq_true, if_false]
  refine ⟨?_, ?_⟩
  · intro hsplit
    rw [hsplit]
    simp only
    cases hget : d.units.get? id with
    | none => exact .inl ⟨u, (Dict.get?_insert d.units id id _).trans (if_pos rfl)⟩
    | some w =>
      cases w with
      | single v => exact .inl ⟨v, hget⟩
      | plural g => exact .inr (hasForm_insertForm (.inl hget))
  · intro base i hsplit
    rw [hsplit]
    simp only
    cases hbase : d.units.get? base with
    | none => exact .inl (hasForm_insertForm (.inr rfl))
    | some w =>
      cases w with
      | single v => exact .inr ⟨v, hbase⟩
      | plural g => exact .inl (hasForm_insertForm (.inl hbase))

/-! ## Several additions -/

theorem insert_eq_of_not_changed {d : Document} {id : String} {u : TransUnit}
    (h : (d.insert id u).2 = false) : (d.insert id u).1 = d := by
  rcases insert_cases d id u with heq | ⟨base, g, i, -, -, -, -, heq⟩ | ⟨-, -, heq⟩
  · rw [heq]
  · rw [heq] at h
    cases h
  · rw [heq] at h
    cases h

section InsertAll

variable (settings : WriterSettings) (writesTarget : Bool) (additions : List Addition)

theorem insertAll_fst (d : Document) :
    (d.insertAll settings writesTarget additions).1 =
      additions.foldl (fun d a => (d.insert a.key.id (a.unit settings writesTarget)).1) d :=
  foldl_change_fst (fun d (a : Addition) => d.insert a.key.id (a.unit settings writesTarget))
    additions d false

theorem insertAll_eq_of_not_changed
    (h : (d.insertAll settings writesTarget additions).2 = false) :
    (d.insertAll settings writesTarget additions).1 = d := by
  rw [insertAll_fst]
  exact (foldl_change_eq (fun d (a : Addition) => d.insert a.key.id (a.unit settings writesTarget))
    (fun _ _ => insert_eq_of_not_changed) additions d false h).2

theorem grows_insertAll (d : Document) :
    d.Grows (d.insertAll settings writesTarget additions).1 := by
  rw [insertAll_fst]
  exact List.foldlRecOn (motive := d.Grows) additions _ (.refl d) fun d' h a _ =>
    h.trans (grows_insert d' a.key.id _)

/-- Several additions supply their identifiers. -/
theorem supplies_insertAll {a : Addition} (ha : a ∈ additions) (hid : a.key.id ≠ "") :
    (d.insertAll settings writesTarget additions).1.Supplies a.key.id := by
  obtain ⟨before, after, rfl⟩ := List.append_of_mem ha
  have hsplit : (d.insertAll settings writesTarget (before ++ a :: after)).1 =
      ((((d.insertAll settings writesTarget before).1).insert a.key.id
        (a.unit settings writesTarget)).1.insertAll settings writesTarget after).1 := by
    rw [insertAll_fst, insertAll_fst, insertAll_fst, List.foldl_append, List.foldl_cons]
  rw [hsplit]
  -- what follows the addition only adds to what it left
  exact (supplies_insert hid _).grow (grows_insertAll settings writesTarget after _)

theorem AsRead.contains_of_mem_body (h : d.AsRead) {id : String} (hid : .unit id ∈ d.body) :
    d.units.contains id = true := by
  obtain ⟨ps, -, hunits, hbody, -⟩ := h
  rw [hbody] at hid
  obtain ⟨p, hp, heq⟩ := List.mem_map.1 hid
  cases p with
  | foreign n => cases heq
  | keyed k u =>
    cases heq
    rw [Dict.contains_iff, hunits]
    exact Part.mem_keys.2 ⟨u, hp⟩

theorem AsRead.contains_of_repeats (h : d.AsRead) {id : String} (hid : d.Repeats id) :
    d.units.contains id = true := by
  obtain ⟨ps, hstable, hunits, hbody, -⟩ := h
  obtain ⟨n, e, hn, he, hunit, hattribute⟩ := hid
  rw [hbody] at hn
  obtain ⟨seen, hseen, hverdict⟩ := hstable.foreign (foreign_mem_map_ofPart.1 hn)
  have hmem := bodyVerdict_eq_foreign_iff.1 (hverdict e he) id hattribute hunit
  rw [Dict.contains_iff, hunits]
  exact (hseen id hmem).resolve_left (by simp)

/-- What holds of a catalog to which units were added one by one. -/
structure Extended (d d' : Document) : Prop where
  sound : d'.Sound
  distinct : d'.units.Distinct
  body : d'.body = d.body
  contains : ∀ id, d.units.contains id = true → d'.units.contains id = true

theorem Extended.insert (h : d.Extended d') (id : String) {u : TransUnit} (hu : u.Sound) :
    d.Extended (d'.insert id u).1 := by
  have hsound := h.sound.insert id hu
  have hkeys (base : String) (w : CatalogUnit) (other : String)
      (hother : d.units.contains other = true) :
      (d'.units.insert base w).contains other = true := by
    unfold Dict.contains
    rw [Dict.get?_insert]
    split
    · rfl
    · exact h.contains other hother
  rcases insert_cases d' id u with heq | ⟨base, g, i, -, -, -, -, heq⟩ | ⟨-, -, heq⟩
  · rw [heq]
    exact h
  · rw [heq] at hsound ⊢
    exact ⟨hsound, h.distinct.insert _ _, h.body, hkeys _ _⟩
  · rw [heq] at hsound ⊢
    exact ⟨hsound, h.distinct.insert _ _, h.body, hkeys _ _⟩

theorem extended_insertAll (hsound : d.Sound) (hdistinct : d.units.Distinct) :
    d.Extended (d.insertAll settings writesTarget additions).1 := by
  have hrefl : d.Extended d := ⟨hsound, hdistinct, rfl, fun _ h => h⟩
  rw [insertAll_fst]
  refine List.foldlRecOn (motive := d.Extended) additions _ hrefl ?_
  intro d' h a _
  exact h.insert a.key.id (a.sound_unit settings writesTarget)

theorem Extended.edited (h : d.Extended d') (hread : d.AsRead) : d.Edited d' := by
  refine ⟨h.sound, h.distinct, ?_⟩
  rw [h.body, eq_comm, List.filter_eq_self]
  intro n hn
  cases n with
  | foreign m => rfl
  | unit id => exact h.contains id (hread.contains_of_mem_body hn)

theorem Extended.keepsRepeats (h : d.Extended d') (hread : d.AsRead) {layout : Layout}
    (hlayout : ∀ id, d.Repeats id → layout.orderById = false) : KeepsRepeats layout d d' := by
  intro id hid
  exact ⟨hlayout id hid, h.contains id (hread.contains_of_repeats hid)⟩

end InsertAll

end Document

end TranslationAudit.Catalog
