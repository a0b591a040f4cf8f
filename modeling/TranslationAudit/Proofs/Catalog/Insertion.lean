import TranslationAudit.Proofs.Catalog.Consistent
import TranslationAudit.Proofs.Catalog.Splice

/-! # Where an addition is written

* `spliced_groupLines`, `spliced_lines_new`, `spliced_lines_known`: the lines of a group with one
  more form, and those of a catalog with a new unit or with another one in its place.
* `addedLines`: the lines that an added unit takes.
* `Document.find?_insertUnit`: what was found before an addition is found behind it.
* `insert_adds_block`: an addition changes nothing but for the block of lines that it adds.
-/

namespace TranslationAudit.Catalog

open Markup (Block indent joinLines tagText)

/-! ## Lines of groups -/

theorem spliced_written_withForm {g : PluralGroup} (h : g.Consistent) {i : Nat}
    (hi : g.forms.contains i = false) (orderById : Bool) (u : TransUnit) :
    Spliced [.keyed i u] (g.written orderById) ((g.withForm i u).written orderById) := by
  have hnew : i ∉ g.forms.entries.map Prod.fst := by
    intro hmem
    obtain ⟨⟨j, v⟩, hv, rfl⟩ := List.mem_map.1 hmem
    rw [SortedMap.contains_of_get? ((SortedMap.get?_eq_some_iff h.ascending).2 hv)] at hi
    cases hi
  have hunrecorded : i ∉ Part.keys (g.children.map GroupChild.part) := by
    intro hmem
    obtain ⟨v, hv⟩ := Part.mem_keys.1 hmem
    obtain ⟨c, hc, heq⟩ := List.mem_map.1 hv
    cases c with
    | foreign n => cases heq
    | form j =>
      cases heq
      rw [h.recorded i hc] at hi
      cases hi
  have hchildren : (g.withForm i u).children.map GroupChild.part =
      g.children.map GroupChild.part ++ [.keyed i ()] := by
    rw [PluralGroup.withForm, List.map_append]
    rfl
  rw [PluralGroup.written, PluralGroup.written, hchildren]
  refine Part.spliced_written_concat orderById (SortedMap.spliced_insert hi u) hnew ?_ ?_
    hunrecorded fun xs ys hspliced _ => hspliced
  · intro j hj
    rw [PluralGroup.withForm, SortedMap.get?_insert, if_neg hj]
  · rw [PluralGroup.withForm, SortedMap.get?_insert, if_pos rfl]

/-- Where a group writes one more form, it has the lines of that form more. -/
theorem spliced_groupLines_of_written {g g' : PluralGroup} {layout : Layout} {i : Nat}
    {u : TransUnit} {id : String} (hattributes : g'.allAttributes id = g.allAttributes id)
    (h : Spliced [.keyed i u] (g.written layout.orderById) (g'.written layout.orderById)) :
    Spliced (unitLines layout.tabWidth 4 (pluralFormId id i) u) (groupLines layout id g)
      (groupLines layout id g') := by
  have hlines (g : PluralGroup) : groupLines layout id g =
      [indent layout.tabWidth 3 ++ "<" ++ tagText "group" (g.allAttributes id) ++ ">"] ++
        ((g.written layout.orderById).flatMap fun p =>
          Block.linesAll layout.tabWidth 4 (p.blocks (PluralGroup.formBlock id))) ++
        [indent layout.tabWidth 3 ++ "</" ++ "group" ++ ">"] := by
    rw [PluralGroup.groupLines_eq, PluralGroup.block, Block.lines, Block.linesAll_flatMap]
  have hform := h.flatMap fun p =>
    Block.linesAll layout.tabWidth 4 (p.blocks (PluralGroup.formBlock id))
  rw [List.flatMap_singleton, Part.blocks, Block.linesAll_singleton, PluralGroup.formBlock,
    ← TransUnit.unitLines_eq] at hform
  rw [hlines, hlines, hattributes]
  exact (hform.append_left _).append_right _

/-- A group with one more form has the lines of that form more. -/
theorem spliced_groupLines {g : PluralGroup} (h : g.Consistent) {i : Nat}
    (hi : g.forms.contains i = false) (layout : Layout) (id : String) (u : TransUnit) :
    Spliced (unitLines layout.tabWidth 4 (pluralFormId id i) u) (groupLines layout id g)
      (groupLines layout id (g.withForm i u)) :=
  spliced_groupLines_of_written rfl (spliced_written_withForm h hi layout.orderById u)

/-! ## Lines of catalogs -/

/-- The lines of a part of a body. -/
def bodyPartLines (layout : Layout) (p : Part String CatalogUnit) : List String :=
  Block.linesAll layout.tabWidth 3 (p.blocks (CatalogUnit.block layout.orderById))

theorem bodyPartLines_keyed (layout : Layout) (id : String) (w : CatalogUnit) :
    bodyPartLines layout (.keyed id w) = catalogUnitLines layout id w := by
  rw [bodyPartLines, Part.blocks, Block.linesAll_singleton, catalogUnitLines_eq]

theorem lines_eq_written (layout : Layout) (d : Document) (h : Header) :
    lines layout d h =
      headLines layout d h ++ (d.written layout).flatMap (bodyPartLines layout) ++
        footLines layout := by
  rw [lines_eq, Document.bodyBlocks, Block.linesAll_flatMap]
  rfl

/-- Where a catalog writes one more unit or group, it has its lines more. -/
theorem spliced_lines_of_written {layout : Layout} {d d' : Document} {header : Header} {id : String}
    {w : CatalogUnit} (hhead : headLines layout d' header = headLines layout d header)
    (h : Spliced [.keyed id w] (d.written layout) (d'.written layout)) :
    Spliced (catalogUnitLines layout id w) (lines layout d header) (lines layout d' header) := by
  have hlines := h.flatMap (bodyPartLines layout)
  rw [List.flatMap_singleton, bodyPartLines_keyed] at hlines
  rw [lines_eq_written, lines_eq_written, hhead]
  exact (hlines.append_left _).append_right _

section Document

variable {d : Document} (h : d.Consistent) (layout : Layout) (header : Header)

include h

/-- What is put at a new identifier has its lines more. -/
theorem spliced_lines_new {id : String} (hnew : d.units.get? id = none) (w : CatalogUnit) :
    Spliced (catalogUnitLines layout id w) (lines layout d header)
      (lines layout { d with units := d.units.insert id w } header) := by
  have hcontains : d.units.contains id = false := by
    rw [Dict.contains, hnew]
    rfl
  have hkeys : id ∉ d.units.keys := by
    rw [← Dict.contains_iff, hcontains]
    simp
  have hentries : (d.units.insert id w).entries = d.units.entries ++ [(id, w)] :=
    Dict.entries_insert_new hkeys w
  have hdistinct : ((d.units.insert id w).entries.map Prod.fst).Nodup := h.distinct.insert id w
  have hunrecorded : id ∉ Part.keys (d.body.map BodyNode.part) := by
    intro hmem
    obtain ⟨v, hv⟩ := Part.mem_keys.1 hmem
    obtain ⟨c, hc, heq⟩ := List.mem_map.1 hv
    cases c with
    | foreign n => cases heq
    | unit other =>
      cases heq
      rw [h.recorded id hc] at hcontains
      cases hcontains
  have hparts : Spliced [.keyed id w] (d.written layout)
      (({ d with units := d.units.insert id w } : Document).written layout) := by
    rw [Document.written, Document.written]
    refine Part.spliced_written layout.orderById ?_ ?_ hunrecorded ?_
    · rw [hentries]
      exact .concat _ _
    · intro j hj
      rw [Dict.get?_insert, if_neg hj]
    · intro xs ys hspliced hsub
      exact hspliced.sortNatural (hdistinct.sublist (hsub.map Prod.fst))
  exact spliced_lines_of_written rfl hparts

/-- What takes the place of a unit is written in its place. -/
theorem lines_known {id : String} {v : CatalogUnit} (hv : d.units.get? id = some v)
    (w : CatalogUnit) : ∃ front back,
      lines layout d header = front ++ catalogUnitLines layout id v ++ back ∧
        lines layout { d with units := d.units.insert id w } header =
          front ++ catalogUnitLines layout id w ++ back := by
  have hcontains : d.units.contains id = true := Dict.contains_of_get? hv
  have hwritten : ({ d with units := d.units.insert id w } : Document).written layout =
      (d.written layout).map (Part.replace id w) := by
    rw [Document.written, Document.written, Dict.entries_insert_known h.distinct hcontains]
    refine Part.written_replace layout.orderById ?_ ?_
    · intro j
      rw [Dict.get?_insert]
      split
      · next hj => rw [hj, hv, Option.map_some]
      · rw [Option.map_id']
    · exact Text.sortNatural_map Prod.fst fun e => rfl
  have hmem : .keyed id v ∈ d.written layout :=
    Part.keyed_mem_written (Text.sortNatural_perm Prod.fst) hv (Dict.mem_of_get? hv)
  have hnodup : (Part.keys (d.written layout)).Nodup :=
    Part.nodup_keys_written (Text.sortNatural_perm Prod.fst) h.distinct
  obtain ⟨front, back, hparts, hreplaced⟩ := Part.exists_map_replace (v := w) hnodup hmem
  refine ⟨headLines layout d header ++ front.flatMap (bodyPartLines layout),
    back.flatMap (bodyPartLines layout) ++ footLines layout, ?_, ?_⟩
  · rw [lines_eq_written, hparts]
    simp only [List.flatMap_append, List.flatMap_cons, bodyPartLines_keyed, List.append_assoc]
  · rw [lines_eq_written, hwritten, hreplaced]
    simp only [List.flatMap_append, List.flatMap_cons, bodyPartLines_keyed, List.append_assoc]
    rfl

/-- What takes the place of a unit changes the lines of that unit only. -/
theorem spliced_lines_known {id : String} {v w : CatalogUnit} (hv : d.units.get? id = some v)
    {block : List String}
    (hunit : Spliced block (catalogUnitLines layout id v) (catalogUnitLines layout id w)) :
    Spliced block (lines layout d header)
      (lines layout { d with units := d.units.insert id w } header) := by
  obtain ⟨front, back, hbefore, hafter⟩ := lines_known h layout header hv w
  rw [hbefore, hafter]
  exact (hunit.append_left front).append_right back

end Document

/-! ## What an addition finds and leaves -/

/-- The lines that an added unit takes: its own ones, or those of a new group around it. -/
def addedLines (layout : Layout) (d : Document) (id : String) (u : TransUnit) : List String :=
  match splitPluralForm id with
  | some (base, i) =>
    if d.units.contains base then unitLines layout.tabWidth 4 (pluralFormId base i) u
    else groupLines layout base (({} : PluralGroup).withForm i u)
  | none =>
    if d.units.contains id then unitLines layout.tabWidth 4 (pluralFormId id 0) u
    else unitLines layout.tabWidth 3 id u

theorem addedLines_ne_nil (layout : Layout) (d : Document) (id : String) (u : TransUnit) :
    addedLines layout d id u ≠ [] := by
  unfold addedLines
  split <;> split <;> simp [unitLines, groupLines]

namespace Document

variable {d : Document}

theorem insertForm_eq (d : Document) (base : String) (g : PluralGroup) (i : Nat) (u : TransUnit) :
    d.insertForm base g i u =
      if g.forms.contains i then (d, false)
      else ({ d with units := d.units.insert base (.plural (g.withForm i u)) }, true) := by
  rw [insertForm, PluralGroup.insertForm]
  cases g.forms.contains i <;> rfl

/-- What was added is a form of a group that is there, or a unit or group that is new. -/
theorem insert_changed {id : String} {u : TransUnit} (h : (d.insert id u).2 = true)
    (layout : Layout) :
    (∃ base g i, d.units.get? base = some (.plural g) ∧ g.forms.contains i = false ∧
        (d.insert id u).1 = { d with units := d.units.insert base (.plural (g.withForm i u)) } ∧
        addedLines layout d id u = unitLines layout.tabWidth 4 (pluralFormId base i) u) ∨
      ∃ base w, d.units.get? base = none ∧
        (∀ v, w = .single v → splitPluralForm base = none) ∧
        (d.insert id u).1 = { d with units := d.units.insert base w } ∧
        addedLines layout d id u = catalogUnitLines layout base w := by
  unfold insert at h ⊢
  unfold addedLines Dict.contains
  cases hid : id.isEmpty with
  | true =>
    rw [hid] at h
    cases h
  | false =>
    simp only [hid, Bool.false_eq_true, if_false] at h ⊢
    cases hsplit : splitPluralForm id with
    | some form =>
      obtain ⟨base, i⟩ := form
      simp only [hsplit] at h ⊢
      cases hbase : d.units.get? base with
      | none => exact .inr ⟨base, .plural (({} : PluralGroup).withForm i u), hbase, nofun, rfl, rfl⟩
      | some w =>
        cases w with
        | single v => simp [hbase] at h
        | plural g =>
          simp only [hbase, insertForm_eq] at h ⊢
          cases hi : g.forms.contains i with
          | true => simp [hi] at h
          | false => exact .inl ⟨base, g, i, hbase, hi, rfl, rfl⟩
    | none =>
      simp only [hsplit] at h ⊢
      cases hbase : d.units.get? id with
      | none => exact .inr ⟨id, .single u, hbase, fun _ _ => hsplit, rfl, rfl⟩
      | some w =>
        cases w with
        | single v => simp [hbase] at h
        | plural g =>
          simp only [hbase, insertForm_eq] at h ⊢
          cases hi : g.forms.contains 0 with
          | true => simp [hi] at h
          | false => exact .inl ⟨id, g, 0, hbase, hi, rfl, rfl⟩

theorem find?_eq_some_iff {id : String} {u : TransUnit} :
    d.find? id = some u ↔ d.units.get? id = some (.single u) ∨
      (∀ v, d.units.get? id ≠ some (.single v)) ∧ ∃ base n g, splitPluralForm id = some (base, n) ∧
        d.units.get? base = some (.plural g) ∧ g.forms.get? n = some u := by
  unfold find?
  split
  · next v hv => simp [hv]
  · next hid =>
    have hother : ∀ v, d.units.get? id ≠ some (.single v) := fun v hv => hid v hv
    cases hsplit : splitPluralForm id with
    | none => simp [hother]
    | some form =>
      obtain ⟨base, n⟩ := form
      cases hbase : d.units.get? base with
      | none => simp [hother, hbase]
      | some w => cases w <;> simp [hother, hbase]

/-- What was found before is found once a group has grown or something new has come, unless a single
unit has taken the identifier of a form. -/
theorem find?_insertUnit {base : String} {w : CatalogUnit}
    (hgrown : ∀ v, d.units.get? base = some v → ∃ g g', v = .plural g ∧ w = .plural g' ∧
      ∀ n u, g.forms.get? n = some u → g'.forms.get? n = some u)
    (hsingle : ∀ v, w = .single v → splitPluralForm base = none) {other : String} {u : TransUnit}
    (h : d.find? other = some u) :
    ({ d with units := d.units.insert base w } : Document).find? other = some u := by
  rw [find?_eq_some_iff] at h ⊢
  simp only [Dict.get?_insert]
  rcases h with hother | ⟨hother, form, n, g, hsplit, hg, hn⟩
  · have hne : other ≠ base := by
      rintro rfl
      obtain ⟨g, g', hv, -⟩ := hgrown _ hother
      cases hv
    exact .inl (by rw [if_neg hne, hother])
  · refine .inr ⟨?_, ?_⟩
    · intro v hv
      split at hv
      · next heq =>
        rw [heq, hsingle v (Option.some.inj hv)] at hsplit
        cases hsplit
      · exact hother v hv
    · by_cases heq : form = base
      · obtain ⟨g₁, g', hv, hw, hforms⟩ := hgrown _ (heq ▸ hg)
        cases hv
        exact ⟨form, n, g', hsplit, by rw [if_pos heq, hw], hforms n u hn⟩
      · exact ⟨form, n, g, hsplit, by rw [if_neg heq, hg], hn⟩

end Document

theorem get?_withForm {g : PluralGroup} {i : Nat} (hi : g.forms.contains i = false) (u : TransUnit)
    {n : Nat} {v : TransUnit} (hv : g.forms.get? n = some v) :
    (g.withForm i u).forms.get? n = some v := by
  have hne : n ≠ i := by
    rintro rfl
    rw [SortedMap.contains_of_get? hv] at hi
    cases hi
  rw [PluralGroup.withForm, SortedMap.get?_insert, if_neg hne, hv]

/-- An addition that is refused changes nothing. One that is made leaves all units that were found,
and its text is the one before with one block of lines more: those of the unit, or those of a new
group with it. -/
theorem insert_adds_block {d : Document} (hd : d.Reached) (id : String) (u : TransUnit)
    (layout : Layout) (header : Header) :
    ((d.insert id u).2 = false → (d.insert id u).1 = d) ∧
      ((d.insert id u).2 = true →
        (∀ other v, d.find? other = some v → (d.insert id u).1.find? other = some v) ∧
        addedLines layout d id u ≠ [] ∧
        ∃ front back, render layout d header = joinLines (front ++ back) ∧
          render layout (d.insert id u).1 header =
            joinLines (front ++ addedLines layout d id u ++ back)) := by
  refine ⟨Document.insert_eq_of_not_changed, fun hchanged => ?_⟩
  have hconsistent := hd.consistent
  have hspliced : Spliced (addedLines layout d id u) (lines layout d header)
      (lines layout (d.insert id u).1 header) := by
    rcases Document.insert_changed hchanged layout with
      ⟨base, g, i, hg, hi, hinsert, hadded⟩ | ⟨base, w, hnew, -, hinsert, hadded⟩
    · rw [hinsert, hadded]
      exact spliced_lines_known hconsistent layout header hg
        (spliced_groupLines (hconsistent.groups base g hg) hi layout base u)
    · rw [hinsert, hadded]
      exact spliced_lines_new hconsistent layout header hnew w
  refine ⟨fun other v hv => ?_, addedLines_ne_nil layout d id u, ?_⟩
  · rcases Document.insert_changed hchanged layout with
      ⟨base, g, i, hg, hi, hinsert, -⟩ | ⟨base, w, hnew, hsingle, hinsert, -⟩
    · rw [hinsert]
      refine Document.find?_insertUnit (fun w hw => ?_) (fun x hx => ?_) hv
      · rw [hg] at hw
        cases hw
        exact ⟨g, _, rfl, rfl, fun n x hx => get?_withForm hi u hx⟩
      · cases hx
    · rw [hinsert]
      refine Document.find?_insertUnit (fun w' hw' => ?_) hsingle hv
      rw [hnew] at hw'
      cases hw'
  · obtain ⟨front, back, hbefore, hafter⟩ := hspliced
    exact ⟨front, back, by rw [render, hbefore, joinLines], by rw [render, hafter, joinLines]⟩

/-- A form enters a group that has another one, and a unit that is there stays. -/
theorem insert_adds_block_form :
    ∃ d : Document, d.Reached ∧
      ((d.insert "b" {}).2 = false ∧ (d.insert "b" {}).1 = d) ∧
      (d.insert "a[0]" {}).2 = true ∧
        ∃ front back, render {} d (.resolve {} "app" "de") = joinLines (front ++ back) ∧
          render {} (d.insert "a[0]" {}).1 (.resolve {} "app" "de") =
            joinLines (front ++ addedLines {} d "a[0]" {} ++ back) := by
  let text := "<x><file><body><trans-unit id='b'/><trans-unit id='c'/>" ++
    "<group id='a' restype='x-gettext-plurals'><trans-unit id='a[1]'/></group></body></file></x>"
  have hreadable : Document.isReadable text = true := by decide +kernel
  obtain ⟨d, hd, -⟩ := Document.exists_parse "app.xlf" hreadable
  have hchanges : (Document.parse "app.xlf" text).toOption.map (fun d =>
      (((d.remove "c").1.insert "b" {}).2, ((d.remove "c").1.insert "a[0]" {}).2)) =
        some (false, true) := by decide +kernel
  rw [hd] at hchanges
  obtain ⟨hrefused, hmade⟩ := Prod.mk.inj (Option.some.inj hchanges)
  have hreached : (d.remove "c").1.Reached := .removed "c" (.parsed hd)
  obtain ⟨hunchanged, -⟩ := insert_adds_block hreached "b" {} {} (.resolve {} "app" "de")
  obtain ⟨-, hchanged⟩ := insert_adds_block hreached "a[0]" {} {} (.resolve {} "app" "de")
  exact ⟨_, hreached, ⟨hrefused, hunchanged hrefused⟩, hmade, (hchanged hmade).2.2⟩

end TranslationAudit.Catalog
