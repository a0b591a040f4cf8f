import TranslationAudit.Proofs.Catalog.Lookup

/-! # Where a removal takes away

* `Removal`: what a removal takes away; `Document.Names`: what an identifier names for it.
* `Document.remove_of_names`, `Document.remove_of_not_names`: what is named is removed, and nothing
  else.
* `spliced_groupLines_withoutForm`, `spliced_lines_drop`: the lines of a group with one form less,
  and those of a catalog with one unit or group less.
* `Removal.Denotes`, `Document.find?_without`: what is not found any more.
* `remove_takes_block`: a removal changes nothing but for the block of lines that it takes away.
-/

namespace TranslationAudit.Catalog

open Markup (joinLines)

/-! ## What a removal takes away -/

/-- A unit or group as a whole, or one form of a group that has others. -/
inductive Removal where
  | whole (id : String) (w : CatalogUnit)
  | form (base : String) (g : PluralGroup) (i : Nat) (u : TransUnit)

namespace Removal

def lines (layout : Layout) : Removal → List String
  | whole id w => catalogUnitLines layout id w
  | form base _ i u => unitLines layout.tabWidth 4 (pluralFormId base i) u

theorem lines_ne_nil (layout : Layout) (r : Removal) : r.lines layout ≠ [] := by
  cases r with
  | whole id w => cases w <;> simp [lines, catalogUnitLines, unitLines, groupLines]
  | form base g i u => simp [lines, unitLines]

/-- Whether a lookup of an identifier leads to what is taken away. -/
def Denotes (d : Document) (id : String) : Removal → Prop
  | whole other (.single _) => id = other
  | whole base (.plural g) =>
    ¬d.HasSingle id ∧ ∃ n, splitPluralForm id = some (base, n) ∧ g.forms.contains n = true
  | form base _ i _ => ¬d.HasSingle id ∧ splitPluralForm id = some (base, i)

end Removal

namespace Document

variable {d : Document} {id : String} {r : Removal}

/-- What an identifier names for a removal. An identifier that is read as a form of a group that is
there names this form, or the group if it has no other form. Otherwise the identifier names the
unit or group that has it. -/
inductive Names (d : Document) (id : String) : Removal → Prop
  | whole {w : CatalogUnit} (hw : d.units.get? id = some w)
      (hclear : ∀ base n, splitPluralForm id = some (base, n) → ¬d.HasGroup base) :
      Names d id (.whole id w)
  | form {base : String} {g : PluralGroup} {i : Nat} {u : TransUnit}
      (hsplit : splitPluralForm id = some (base, i)) (hg : d.units.get? base = some (.plural g))
      (hu : g.forms.get? i = some u) (hothers : ∃ n, n ≠ i ∧ g.forms.contains n = true) :
      Names d id (.form base g i u)
  | lastForm {base : String} {g : PluralGroup} {i : Nat} {u : TransUnit}
      (hsplit : splitPluralForm id = some (base, i)) (hg : d.units.get? base = some (.plural g))
      (hu : g.forms.get? i = some u) (hlast : ∀ n, g.forms.contains n = true → n = i) :
      Names d id (.whole base (.plural g))

def without (d : Document) : Removal → Document
  | .whole id _ => d.drop id
  | .form base g i _ => { d with units := d.units.insert base (.plural (g.withoutForm i)) }

theorem isEmpty_withoutForm {g : PluralGroup} (h : g.forms.Ascending) (i : Nat) :
    (g.withoutForm i).forms.entries.isEmpty = true ↔ ∀ n, g.forms.contains n = true → n = i := by
  rw [List.isEmpty_iff, PluralGroup.withoutForm, List.filter_eq_nil_iff]
  constructor
  · intro hempty n hn
    obtain ⟨u, hu⟩ := Option.isSome_iff_exists.1 hn
    have hmem := (SortedMap.get?_eq_some_iff h).1 hu
    simpa using hempty (n, u) hmem
  · rintro hlast ⟨n, u⟩ hmem
    have hn := SortedMap.contains_of_get? ((SortedMap.get?_eq_some_iff h).2 hmem)
    simpa using hlast n hn

theorem remove_of_names (h : d.Consistent) (hr : d.Names id r) :
    d.remove id = (d.without r, true) := by
  cases hr with
  | whole hw hclear =>
    rw [remove_whole fun base n g hsplit hg => hclear base n hsplit ⟨g, hg⟩,
      if_pos (Dict.contains_of_get? hw)]
    rfl
  | @form base g i u hsplit hg hu hothers =>
    have hsome : (g.withoutForm i).forms.entries.isEmpty = false := by
      obtain ⟨n, hne, hn⟩ := hothers
      rw [← Bool.not_eq_true, isEmpty_withoutForm (h.groups base g hg).ascending]
      exact fun hlast => hne (hlast n hn)
    rw [remove_form hsplit hg, removeForm_eq, if_pos (SortedMap.contains_of_get? hu), hsome]
    rfl
  | @lastForm base g i u hsplit hg hu hlast =>
    rw [remove_form hsplit hg, removeForm_eq, if_pos (SortedMap.contains_of_get? hu),
      if_pos ((isEmpty_withoutForm (h.groups base g hg).ascending i).2 hlast)]
    rfl

theorem remove_of_not_names (h : ∀ r, ¬d.Names id r) : d.remove id = (d, false) := by
  by_cases hgroup : ∃ base i, splitPluralForm id = some (base, i) ∧ d.HasGroup base
  · obtain ⟨base, i, hsplit, g, hg⟩ := hgroup
    have hi : g.forms.contains i = false := by
      cases hget : g.forms.get? i with
      | none => rw [SortedMap.contains, hget]; rfl
      | some u =>
        by_cases hothers : ∃ n, n ≠ i ∧ g.forms.contains n = true
        · exact absurd (.form hsplit hg hget hothers) (h _)
        · refine absurd (.lastForm hsplit hg hget fun n hn => ?_) (h _)
          exact Classical.byContradiction fun hne => hothers ⟨n, hne, hn⟩
    rw [remove_form hsplit hg, removeForm_eq, hi]
    rfl
  · have hclear : ∀ base n, splitPluralForm id = some (base, n) → ¬d.HasGroup base :=
      fun base n hsplit hg => hgroup ⟨base, n, hsplit, hg⟩
    have hnone : d.units.contains id = false := by
      cases hget : d.units.get? id with
      | none => rw [Dict.contains, hget]; rfl
      | some w => exact absurd (.whole hget hclear) (h _)
    rw [remove_whole fun base n g hsplit hg => hclear base n hsplit ⟨g, hg⟩, hnone]
    rfl

end Document

/-! ## The lines that are left -/

theorem written_withoutForm {g : PluralGroup} (h : g.forms.Ascending) (i : Nat)
    (orderById : Bool) :
    (g.withoutForm i).written orderById =
      (g.written orderById).filter fun p => !Part.hasKey i p := by
  have hchildren : (g.withoutForm i).children.map GroupChild.part =
      (g.children.map GroupChild.part).filter fun c => !Part.hasKey i c := by
    rw [PluralGroup.withoutForm, List.filter_map]
    refine congrArg _ (List.filter_congr fun c _ => ?_)
    cases c <;> rfl
  have hfind : ∀ j, j ≠ i → (g.withoutForm i).forms.get? j = g.forms.get? j := by
    intro j hj
    rw [PluralGroup.withoutForm, SortedMap.get?_filter_ne h, if_neg hj]
  rw [PluralGroup.written, hchildren]
  exact Part.written_without orderById hfind fun xs _ => rfl

theorem spliced_groupLines_withoutForm {g : PluralGroup} (h : g.forms.Ascending) {i : Nat}
    {u : TransUnit} (hu : g.forms.get? i = some u) (layout : Layout) (id : String) :
    Spliced (unitLines layout.tabWidth 4 (pluralFormId id i) u)
      (groupLines layout id (g.withoutForm i)) (groupLines layout id g) := by
  refine spliced_groupLines_of_written rfl ?_
  rw [written_withoutForm h]
  have hmem : .keyed i u ∈ g.written layout.orderById :=
    (PluralGroup.mem_written_iff h).2 ((SortedMap.get?_eq_some_iff h).1 hu)
  exact Part.spliced_filter_hasKey (PluralGroup.nodup_keys_written h _) hmem

theorem written_drop {d : Document} (h : d.units.Distinct) (id : String) (layout : Layout) :
    (d.drop id).written layout = (d.written layout).filter fun p => !Part.hasKey id p := by
  have hbody : (d.drop id).body.map BodyNode.part =
      (d.body.map BodyNode.part).filter fun c => !Part.hasKey id c := by
    rw [Document.drop, List.filter_map]
    refine congrArg _ (List.filter_congr fun n _ => ?_)
    cases n <;> rfl
  have hfind : ∀ other, other ≠ id → (d.drop id).units.get? other = d.units.get? other := by
    intro other hother
    rw [Document.get?_drop, if_neg hother]
  rw [Document.written, hbody]
  refine Part.written_without layout.orderById hfind fun xs hxs => ?_
  have hnodup : (xs.map Prod.fst).Nodup := h.sublist (hxs.map Prod.fst)
  exact Text.sortNatural_filter Prod.fst (fun a ha b hb => List.inj_on_of_nodup_map hnodup ha hb) _

theorem spliced_lines_drop {d : Document} (h : d.units.Distinct) {id : String} {w : CatalogUnit}
    (hw : d.units.get? id = some w) (layout : Layout) (header : Header) :
    Spliced (catalogUnitLines layout id w) (lines layout (d.drop id) header)
      (lines layout d header) := by
  refine spliced_lines_of_written rfl ?_
  rw [written_drop h]
  have hmem : .keyed id w ∈ d.written layout :=
    Part.keyed_mem_written (Text.sortNatural_perm Prod.fst) hw (Dict.mem_of_get? hw)
  exact Part.spliced_filter_hasKey
    (Part.nodup_keys_written (Text.sortNatural_perm Prod.fst) h) hmem

theorem spliced_lines_without {d : Document} (h : d.Consistent) {id : String} {r : Removal}
    (hr : d.Names id r) (layout : Layout) (header : Header) :
    Spliced (r.lines layout) (lines layout (d.without r) header) (lines layout d header) := by
  cases hr with
  | whole hw => exact spliced_lines_drop h.distinct hw layout header
  | lastForm _ hg => exact spliced_lines_drop h.distinct hg layout header
  | @form base g i u _ hg hu =>
    obtain ⟨front, back, hbefore, hafter⟩ :=
      lines_known h layout header hg (.plural (g.withoutForm i))
    have hgroup := spliced_groupLines_withoutForm (h.groups base g hg).ascending hu layout base
    rw [Document.without, hbefore, hafter]
    exact (hgroup.append_left front).append_right back

/-! ## What is found after a removal -/

namespace Document

variable {d : Document} {id base : String} {r : Removal}

theorem form?_drop (d : Document) (id base : String) (n : Nat) :
    (d.drop id).form? base n = if base = id then none else d.form? base n := by
  rw [form?, get?_drop]
  by_cases hbase : base = id
  · simp only [if_pos hbase]
  · simp only [if_neg hbase, form?]

theorem form?_insertGroup (d : Document) (base other : String) (g : PluralGroup) (n : Nat) :
    ({ d with units := d.units.insert base (.plural g) } : Document).form? other n =
      if other = base then g.forms.get? n else d.form? other n := by
  rw [form?, Dict.get?_insert]
  by_cases hother : other = base
  · simp only [if_pos hother]
  · simp only [if_neg hother, form?]

theorem find?_drop_single {u : TransUnit} (hu : d.units.get? id = some (.single u))
    (hclear : ∀ base n, splitPluralForm id = some (base, n) → ¬d.HasGroup base) (other : String) :
    (d.drop id).find? other = if other = id then none else d.find? other := by
  by_cases hother : other = id
  · rw [if_pos hother, hother]
    refine find?_eq_none ?_ fun base n hsplit => ?_
    · rintro ⟨v, hv⟩
      rw [get?_drop, if_pos rfl] at hv
      cases hv
    · exact form?_of_not_hasGroup (fun hgroup => hclear base n hsplit (group_drop hgroup)) n
  · rw [if_neg hother]
    refine find?_congr (fun v => by rw [get?_drop, if_neg hother]) fun _ base n _ => ?_
    rw [form?_drop]
    by_cases hbase : base = id
    · rw [if_pos hbase, form?_of_not_hasGroup]
      rintro ⟨g, hg⟩
      rw [hbase, hu] at hg
      cases hg
    · rw [if_neg hbase]

/-- Where some forms of one group are gone and all else is as before, just these forms are not found
any more. -/
theorem find?_of_gone {d' : Document} {gone : Nat → Prop} {other : String}
    (hsingle : ∀ v, d'.units.get? other = some (.single v) ↔ d.units.get? other = some (.single v))
    (hgone : ∀ n, gone n → d'.form? base n = none)
    (hkept : ∀ base' n, ¬(base' = base ∧ gone n) → d'.form? base' n = d.form? base' n) :
    ((¬d.HasSingle other ∧ ∃ n, splitPluralForm other = some (base, n) ∧ gone n) →
        d'.find? other = none) ∧
      (¬(¬d.HasSingle other ∧ ∃ n, splitPluralForm other = some (base, n) ∧ gone n) →
        d'.find? other = d.find? other) := by
  constructor
  · rintro ⟨hother, n, hsplit, hn⟩
    have hother' : ¬d'.HasSingle other := by
      rintro ⟨v, hv⟩
      exact hother ⟨v, (hsingle v).1 hv⟩
    refine find?_eq_none hother' fun base' m hsplit' => ?_
    rw [hsplit] at hsplit'
    cases hsplit'
    exact hgone n hn
  · intro hnot
    refine find?_congr hsingle fun hother base' n hsplit => hkept base' n ?_
    rintro ⟨rfl, hn⟩
    exact hnot ⟨hother, n, hsplit, hn⟩

theorem find?_drop_group {g : PluralGroup} (hg : d.units.get? base = some (.plural g))
    (other : String) :
    ((Removal.whole base (.plural g)).Denotes d other → (d.drop base).find? other = none) ∧
      (¬(Removal.whole base (.plural g)).Denotes d other →
        (d.drop base).find? other = d.find? other) := by
  refine find?_of_gone (fun v => ?_) (fun n _ => ?_) fun base' n hnot => ?_
  · rw [get?_drop]
    by_cases hother : other = base <;> simp [hother, hg]
  · rw [form?_drop, if_pos rfl]
  · rw [form?_drop]
    by_cases hbase : base' = base
    · -- a form that the group does not have was not found before
      have hnone : g.forms.get? n = none :=
        Option.eq_none_iff_forall_ne_some.2 fun u hu => hnot ⟨hbase, SortedMap.contains_of_get? hu⟩
      rw [if_pos hbase, hbase, form?_plural hg, hnone]
    · rw [if_neg hbase]

theorem find?_withoutForm {g : PluralGroup} (hascending : g.forms.Ascending)
    (hg : d.units.get? base = some (.plural g)) (i : Nat) (u : TransUnit) (other : String) :
    ((Removal.form base g i u).Denotes d other →
        (d.without (.form base g i u)).find? other = none) ∧
      (¬(Removal.form base g i u).Denotes d other →
        (d.without (.form base g i u)).find? other = d.find? other) := by
  have hform (base' : String) (n : Nat) : (d.without (.form base g i u)).form? base' n =
      if base' = base ∧ n = i then none else d.form? base' n := by
    rw [without, form?_insertGroup]
    by_cases hbase : base' = base
    · rw [if_pos hbase, hbase, form?_plural hg, PluralGroup.withoutForm,
        SortedMap.get?_filter_ne hascending]
      simp
    · rw [if_neg hbase, if_neg fun heq => hbase heq.1]
  have hdenotes : (Removal.form base g i u).Denotes d other ↔
      ¬d.HasSingle other ∧ ∃ n, splitPluralForm other = some (base, n) ∧ n = i := by
    simp [Removal.Denotes]
  rw [hdenotes]
  refine find?_of_gone (fun v => ?_) (fun n hn => ?_) fun base' n hnot => ?_
  · rw [without, Dict.get?_insert]
    by_cases hother : other = base <;> simp [hother, hg]
  · rw [hform, if_pos ⟨rfl, hn⟩]
  · rw [hform, if_neg hnot]

/-- What is taken away is not found any more, and all else is found as before. -/
theorem find?_without (h : d.Consistent) (hr : d.Names id r) (other : String) :
    (r.Denotes d other → (d.without r).find? other = none) ∧
      (¬r.Denotes d other → (d.without r).find? other = d.find? other) := by
  cases hr with
  | @whole w hw hclear =>
    cases w with
    | single u =>
      have hfind := find?_drop_single hw hclear other
      exact ⟨fun hother => hfind.trans (if_pos hother), fun hother => hfind.trans (if_neg hother)⟩
    | plural g => exact find?_drop_group hw other
  | lastForm _ hg => exact find?_drop_group hg other
  | @form base g i u _ hg => exact find?_withoutForm (h.groups base g hg).ascending hg i u other

end Document

/-- A removal that names nothing changes nothing. One that names a unit, a form or a group is made:
what it takes away is not found any more, all else is found as before, and its text is the one
before without the one block of lines of what it takes away. -/
theorem remove_takes_block {d : Document} (hd : d.Reached) (id : String) (layout : Layout)
    (header : Header) :
    ((d.remove id).2 = true ↔ ∃ r, d.Names id r) ∧
      ((d.remove id).2 = false → (d.remove id).1 = d) ∧
      ∀ r, d.Names id r →
        (∀ other, r.Denotes d other → (d.remove id).1.find? other = none) ∧
        (∀ other, ¬r.Denotes d other → (d.remove id).1.find? other = d.find? other) ∧
        r.lines layout ≠ [] ∧
        ∃ front back, render layout d header = joinLines (front ++ r.lines layout ++ back) ∧
          render layout (d.remove id).1 header = joinLines (front ++ back) := by
  have hconsistent := hd.consistent
  have hunnamed (h : ¬∃ r, d.Names id r) : d.remove id = (d, false) :=
    Document.remove_of_not_names fun r hr => h ⟨r, hr⟩
  refine ⟨⟨fun hremoved => ?_, ?_⟩, fun hkept => ?_, fun r hr => ?_⟩
  · refine Classical.byContradiction fun h => ?_
    rw [hunnamed h] at hremoved
    cases hremoved
  · rintro ⟨r, hr⟩
    rw [Document.remove_of_names hconsistent hr]
  · rw [hunnamed]
    rintro ⟨r, hr⟩
    rw [Document.remove_of_names hconsistent hr] at hkept
    cases hkept
  · rw [Document.remove_of_names hconsistent hr]
    obtain ⟨front, back, hafter, hbefore⟩ := spliced_lines_without hconsistent hr layout header
    refine ⟨fun other => (Document.find?_without hconsistent hr other).1,
      fun other => (Document.find?_without hconsistent hr other).2, r.lines_ne_nil layout,
      front, back, ?_, ?_⟩
    · rw [render, hbefore, joinLines]
    · rw [render, hafter, joinLines]

/-- A form is taken out of a group that has another one, and where nothing is named nothing is. -/
theorem remove_takes_block_form :
    ∃ d : Document, d.Reached ∧ ((d.remove "b").2 = false ∧ (d.remove "b").1 = d) ∧
      ∃ r, d.Names "a[0]" r ∧ (d.remove "a[0]").1.find? "a[0]" = none ∧
        ∃ front back,
          render {} d (.resolve {} "app" "de") = joinLines (front ++ r.lines {} ++ back) ∧
            render {} (d.remove "a[0]").1 (.resolve {} "app" "de") =
              joinLines (front ++ back) := by
  let text := "<x><file><body><trans-unit id='c'/>" ++
    "<group id='a' restype='x-gettext-plurals'><trans-unit id='a[1]'/></group></body></file></x>"
  have hreadable : Document.isReadable text = true := by decide +kernel
  obtain ⟨d, hd, -⟩ := Document.exists_parse "app.xlf" hreadable
  have hchanges : (Document.parse "app.xlf" text).toOption.map (fun d =>
      (((d.insert "a" {}).1.remove "b").2, ((d.insert "a" {}).1.remove "a[0]").2,
        ((d.insert "a" {}).1.units.get? "a[0]").isSome)) =
        some (false, true, false) := by decide +kernel
  rw [hd] at hchanges
  obtain ⟨hrefused, hchanges⟩ := Prod.mk.inj (Option.some.inj hchanges)
  obtain ⟨hmade, hfree⟩ := Prod.mk.inj hchanges
  have hreached : (d.insert "a" {}).1.Reached := .inserted "a" {} (.parsed hd)
  obtain ⟨-, hunchanged, -⟩ := remove_takes_block hreached "b" {} (.resolve {} "app" "de")
  obtain ⟨hnamed, -, htaken⟩ := remove_takes_block hreached "a[0]" {} (.resolve {} "app" "de")
  obtain ⟨r, hr⟩ := hnamed.1 hmade
  obtain ⟨hgone, -, -, hblock⟩ := htaken r hr
  have hsingle : ¬(d.insert "a" {}).1.HasSingle "a[0]" := by
    rintro ⟨v, hv⟩
    rw [hv] at hfree
    cases hfree
  have hdenotes : r.Denotes (d.insert "a" {}).1 "a[0]" := by
    cases hr with
    | whole hw => rw [hw] at hfree; cases hfree
    | form hform => exact ⟨hsingle, hform⟩
    | lastForm hform _ hu => exact ⟨hsingle, _, hform, SortedMap.contains_of_get? hu⟩
  exact ⟨_, hreached, ⟨hrefused, hunchanged hrefused⟩, r, hr, hgone "a[0]" hdenotes, hblock⟩

end TranslationAudit.Catalog
