import TranslationAudit.Proofs.Catalog.Sorted

/-! # Sorted catalogs do not show where units were recorded

* `PluralGroup.SameContents`, `Document.SameContents`: groups and catalogs that differ in the order
  of their units and in the recorded places of units and forms only.
* `CatalogUnit.SameContents.block`: what a sorted catalog writes at an identifier is the same.
* `Document.SameContents.perm_labelledBlocks`: catalogs with the same contents write the same blocks
  in some order.
* `render_sorted_congr`: they have the same text when they are sorted.
-/

namespace TranslationAudit.Catalog

open Markup (Block Node)

/-! ## The same contents -/

/-- The foreign nodes of a group. -/
def PluralGroup.foreignNodes (g : PluralGroup) : List Node :=
  Part.nodes (g.children.map GroupChild.part)

/-- Groups that differ in the recorded places of their forms only. -/
structure PluralGroup.SameContents (g g' : PluralGroup) : Prop where
  restype : g.restype = g'.restype
  attributes : g.attributes = g'.attributes
  forms : g.forms = g'.forms
  foreign : g.foreignNodes = g'.foreignNodes

/-- Equal units, or groups that differ in the recorded places of their forms only. -/
inductive CatalogUnit.SameContents : CatalogUnit → CatalogUnit → Prop
  | single (u : TransUnit) : SameContents (.single u) (.single u)
  | plural {g g' : PluralGroup} (h : g.SameContents g') : SameContents (.plural g) (.plural g')

/-- Catalogs that differ in the order of their units and in the recorded places of units and forms
only, metadata apart. -/
structure Document.SameContents (d d' : Document) : Prop where
  fileAttributes : d.fileAttributes = d'.fileAttributes
  fileChildren : d.fileChildren = d'.fileChildren
  foreign : d.foreignNodes = d'.foreignNodes
  units : ∀ id, Option.Rel CatalogUnit.SameContents (d.units.get? id) (d'.units.get? id)

/-! ## The same blocks -/

/-- A sorted group does not show the recorded places of its forms. -/
theorem PluralGroup.SameContents.block {g g' : PluralGroup} (h : g.SameContents g') (id : String) :
    g.block true id = g'.block true id := by
  have hwritten : g.written true = g'.written true := by
    have hforeign := h.foreign
    rw [foreignNodes, foreignNodes] at hforeign
    rw [written_sorted, written_sorted, hforeign, h.forms]
  rw [PluralGroup.block, PluralGroup.block, hwritten, allAttributes, allAttributes, h.restype,
    h.attributes]

theorem CatalogUnit.SameContents.block {w w' : CatalogUnit} (h : w.SameContents w') (id : String) :
    w.block true id = w'.block true id := by
  cases h with
  | single u => rfl
  | plural h => exact h.block id

namespace Document

/-- The block that a sorted catalog writes for a unit, with its identifier. -/
def labelledBlock (e : String × CatalogUnit) : String × Block := (e.1, e.2.block true e.1)

def labelledBlocks (d : Document) : List (String × Block) := d.units.entries.map labelledBlock

variable {d d' : Document}

theorem nodup_labelledBlocks (h : d.units.Distinct) : (d.labelledBlocks.map Prod.fst).Nodup := by
  rw [labelledBlocks, List.map_map]
  exact h

theorem mem_labelledBlocks (h : d.units.Distinct) {id : String} {b : Block} :
    (id, b) ∈ d.labelledBlocks ↔ ∃ w, d.units.get? id = some w ∧ w.block true id = b := by
  rw [labelledBlocks, List.mem_map]
  constructor
  · rintro ⟨⟨other, w⟩, hw, heq⟩
    cases heq
    exact ⟨w, (Dict.get?_eq_some_iff h).2 hw, rfl⟩
  · rintro ⟨w, hw, rfl⟩
    exact ⟨(id, w), Dict.mem_of_get? hw, rfl⟩

/-- Catalogs with the same contents write the same blocks in some order. -/
theorem SameContents.perm_labelledBlocks (h : d.SameContents d') (hd : d.units.Distinct)
    (hd' : d'.units.Distinct) : d.labelledBlocks.Perm d'.labelledBlocks := by
  refine (List.perm_ext_iff_of_nodup (nodup_labelledBlocks hd).of_map
    (nodup_labelledBlocks hd').of_map).2 ?_
  rintro ⟨id, b⟩
  rw [mem_labelledBlocks hd, mem_labelledBlocks hd']
  have hunits := h.units id
  generalize d.units.get? id = v at hunits ⊢
  generalize d'.units.get? id = v' at hunits ⊢
  cases hunits with
  | none => simp
  | some hw => simp [hw.block id]

/-- What is sorted is written in the order of the identifiers. -/
theorem bodyBlocks_labelled {layout : Layout} (hlayout : layout.orderById = true) :
    d.bodyBlocks layout = d.foreignNodes.flatMap Node.blocks ++
      (Text.sortNatural Prod.fst d.labelledBlocks).map Prod.snd := by
  have hsort : Text.sortNatural Prod.fst d.labelledBlocks =
      d.sortedUnits.map labelledBlock :=
    Text.sortNatural_map (f := labelledBlock) Prod.fst (fun e => rfl) d.units.entries
  rw [bodyBlocks_sorted hlayout, hsort, List.map_map]
  rfl

theorem SameContents.bodyBlocks (h : d.SameContents d') (hd : d.units.Distinct)
    (hd' : d'.units.Distinct) {layout : Layout} (hlayout : layout.orderById = true) :
    d.bodyBlocks layout = d'.bodyBlocks layout := by
  have hsorted : Text.sortNatural Prod.fst d.labelledBlocks =
      Text.sortNatural Prod.fst d'.labelledBlocks := by
    refine Text.sortNatural_eq_of_perm Prod.fst (h.perm_labelledBlocks hd hd') ?_
    intro a ha b hb
    exact List.inj_on_of_nodup_map (nodup_labelledBlocks hd) ha hb
  rw [bodyBlocks_labelled hlayout, bodyBlocks_labelled hlayout, h.foreign, hsorted]

end Document

/-- Catalogs that differ in the order of their units and in recorded places only have the same text
when they are sorted. -/
theorem render_sorted_congr {d d' : Document} (h : d.SameContents d') (hd : d.units.Distinct)
    (hd' : d'.units.Distinct) (tab : Nat) (header : Header) :
    render ⟨tab, true⟩ d header = render ⟨tab, true⟩ d' header := by
  have hchildren : Node.blocksAll d.fileChildren = Node.blocksAll d'.fileChildren := by
    rw [h.fileChildren]
  exact Document.render_congr rfl h.fileAttributes hchildren (h.bodyBlocks hd hd' rfl)

/-- A unit and a group that two catalogs have in different order, with texts that differ unless they
are sorted. -/
theorem render_sorted_congr_swapped :
    ∃ d d' : Document, d.SameContents d' ∧ d.units.Distinct ∧ d'.units.Distinct ∧
      render ⟨2, true⟩ d (.resolve {} "app" "de") = render ⟨2, true⟩ d' (.resolve {} "app" "de") ∧
      render ⟨2, false⟩ d (.resolve {} "app" "de") ≠
        render ⟨2, false⟩ d' (.resolve {} "app" "de") := by
  let forms : SortedMap Nat TransUnit := ⟨[(0, { source := "card" }), (1, { source := "cards" })]⟩
  let g : PluralGroup := { forms, children := [.form 1, .foreign (.comment "c"), .form 0] }
  let g' : PluralGroup := { forms, children := [.foreign (.comment "c")] }
  let d : Document :=
    { body := [.unit "a9", .foreign (.comment "c")]
      units := ⟨[("a10", .single { target := "t" }), ("a9", .plural g)]⟩ }
  let d' : Document :=
    { body := [.foreign (.comment "c"), .unit "a10"]
      units := ⟨[("a9", .plural g'), ("a10", .single { target := "t" })]⟩ }
  have hgroups : g.SameContents g' := ⟨rfl, rfl, rfl, rfl⟩
  have hsame : d.SameContents d' := by
    refine ⟨rfl, rfl, rfl, fun id => ?_⟩
    by_cases hunit : id = "a10"
    · rw [hunit]
      exact .some (.single _)
    · by_cases hgroup : id = "a9"
      · rw [hgroup]
        exact .some (.plural hgroups)
      · have hnone : d.units.get? id = none ∧ d'.units.get? id = none := by
          simp [Dict.get?, d, d', Dict.lookup_cons_eq_ite, hunit, hgroup]
        rw [hnone.1, hnone.2]
        exact .none
  have hd : d.units.Distinct := (by decide : ["a10", "a9"].Nodup)
  have hd' : d'.units.Distinct := (by decide : ["a9", "a10"].Nodup)
  refine ⟨d, d', hsame, hd, hd', render_sorted_congr hsame hd hd' 2 _, ?_⟩
  decide +kernel

end TranslationAudit.Catalog
