import TranslationAudit.Catalog.Metadata
import TranslationAudit.Proofs.Catalog.Body

/-! # The round trip of a catalog

* `Document.reread`: the catalog that stands for a catalog after writing and reading.
* `parse_render`: it is what the text of a catalog that was read is read as.
* `render_reread`: it has the same text.
-/

namespace TranslationAudit.Catalog

open Markup (Block Element Node)

/-! ## Units -/

namespace CatalogUnit

variable {id : String}

/-- What stands for a unit or a group after writing and reading. -/
def reread (tab : Nat) (orderById : Bool) : CatalogUnit → CatalogUnit
  | .single u => .single (u.reread tab 3)
  | .plural g => .plural (g.reread tab orderById)

/-- The element that the block of a unit or a group is read as. -/
def element (tab : Nat) (orderById : Bool) (id : String) : CatalogUnit → Element
  | .single u => ⟨"trans-unit", u.allAttributes id, Block.contents tab 3 u.innerBlocks⟩
  | .plural g =>
    ⟨"group", g.allAttributes id, Block.contents tab 3
      ((g.written orderById).flatMap (Part.blocks (PluralGroup.formBlock id)))⟩

theorem node_block (tab : Nat) (orderById : Bool) (u : CatalogUnit) :
    (u.block orderById id).node tab 3 = (u.element tab orderById id).toNode := by
  cases u with
  | single u => exact Block.node_nested ..
  | plural g => exact Block.node_nested ..

theorem attribute?_element {u : CatalogUnit} (h : u.Sound id) (tab : Nat) (orderById : Bool) :
    (u.element tab orderById id).attribute? "id" = some id := by
  cases u with
  | single u =>
    exact h.attributes.lookup_merge (TransUnit.mem_own id) (by simp [TransUnit.ownNames])
  | plural g =>
    exact h.attributes.lookup_merge (PluralGroup.mem_own id g.restype)
      (by simp [PluralGroup.ownNames])

/-- What the element of a unit or a group is read as. -/
def again (tab : Nat) (orderById : Bool) (id : String) (u : CatalogUnit) : CatalogUnit :=
  match u with
  | .single v => .single (readUnit ((single v).element tab orderById id))
  | .plural g => .plural (g.again tab orderById id)

theorem bodyVerdict_again {u : CatalogUnit} (h : u.Sound id) {seen : List String}
    (hid : id ∉ seen) (tab : Nat) (orderById : Bool) :
    bodyVerdict seen (u.element tab orderById id) = .keyed id (u.again tab orderById id) := by
  have hseen : seen.contains id = false := by simpa using hid
  rw [bodyVerdict, attribute?_element h]
  simp only [hseen, Bool.false_eq_true, if_false]
  cases u with
  | single u => simp only [element, if_true, again]
  | plural g =>
    have hrestype : Element.attribute? ⟨"group", g.allAttributes id, Block.contents tab 3
        ((g.written orderById).flatMap (Part.blocks (PluralGroup.formBlock id)))⟩ "restype" =
        some pluralRestype := by
      rw [Element.attribute?, PluralGroup.allAttributes,
        h.attributes.lookup_merge (PluralGroup.mem_own id g.restype)
          (by simp [PluralGroup.ownNames]), h.restype]
      rfl
    simp only [element, hrestype, PluralGroup.readGroup_element h, again, String.reduceEq,
      if_false, and_self, if_true]

/-- What was read is read as what stands for it. -/
theorem again_eq_reread {u : CatalogUnit} (h : u.Sound id) (hread : u.AsRead) (tab : Nat)
    (orderById : Bool) : u.again tab orderById id = u.reread tab orderById := by
  cases u with
  | single u => exact congrArg single (TransUnit.readUnit_block h hread id tab 3)
  | plural g => exact congrArg plural (PluralGroup.again_eq_reread h hread tab orderById)

theorem bodyVerdict_element {u : CatalogUnit} (h : u.Sound id) (hread : u.AsRead)
    {seen : List String} (hid : id ∉ seen) (tab : Nat) (orderById : Bool) :
    bodyVerdict seen (u.element tab orderById id) = .keyed id (u.reread tab orderById) := by
  rw [bodyVerdict_again h hid, again_eq_reread h hread]

theorem block_reread {u : CatalogUnit} (h : u.Sound id) (hread : u.AsRead) (tab : Nat)
    (orderById : Bool) : (u.reread tab orderById).block orderById id = u.block orderById id := by
  cases u with
  | single u => exact TransUnit.block_reread h hread tab 3 id
  | plural g => exact PluralGroup.block_reread h hread tab orderById

end CatalogUnit

/-! ## Documents -/

namespace Document

variable {d : Document} {layout : Layout}

theorem part_ofPart (p : Part String CatalogUnit) : (BodyNode.ofPart p).part = p.erase := by
  cases p <;> rfl

/-- In the order of the file, a catalog is written as the parts it was read as. -/
theorem written_eq {ps : List (Part String CatalogUnit)} (hnodup : (Part.keys ps).Nodup)
    (hunits : d.units = ⟨Part.entries ps⟩) (hbody : d.body = ps.map BodyNode.ofPart)
    (hlayout : layout.orderById = false) : d.written layout = ps := by
  have hparts : d.body.map BodyNode.part = ps.map Part.erase := by
    rw [hbody, List.map_map]
    exact List.map_congr_left fun p _ => part_ofPart p
  have hdistinct : d.units.Distinct := by
    rw [Dict.Distinct, hunits]
    exact hnodup
  rw [written, hparts, hlayout]
  refine Part.written_erase List.mergeSort_nil hnodup ?_ ?_
  · intro id u hp
    rw [Dict.get?_eq_some_iff hdistinct, hunits]
    exact Part.mem_entries.2 hp
  · intro e he
    rw [hunits] at he
    exact List.mem_map_of_mem he

/-- The parts that stand for those of a catalog after writing and reading. -/
def rereadParts (layout : Layout) (d : Document) : List (Part String CatalogUnit) :=
  (d.written layout).map
    (Part.map (fun _ u => u.reread layout.tabWidth layout.orderById)
      (Node.reread layout.tabWidth 3))

/-- What stands for a catalog after writing and reading. -/
def reread (layout : Layout) (d : Document) (header : Header) : Document :=
  (d.rereadHead layout header).addParts (d.rereadParts layout)

theorem AsRead.unit (h : d.AsRead) {id : String} {u : CatalogUnit}
    (hu : (id, u) ∈ d.units.entries) : u.AsRead := by
  obtain ⟨ps, -, hunits, -, hps⟩ := h
  rw [hunits] at hu
  exact hps id u (Part.mem_entries.1 hu)

theorem Sound.written (h : d.Sound) {p : Part String CatalogUnit} (hp : p ∈ d.written layout) :
    (∃ n, p = .foreign n ∧ n.Solid) ∨
      ∃ id u, p = .keyed id u ∧ (id, u) ∈ d.units.entries ∧ u.Sound id := by
  rcases mem_written hp with ⟨n, rfl, hn⟩ | ⟨id, u, rfl, hu⟩
  · exact .inl ⟨n, rfl, h.solid n hn⟩
  · exact .inr ⟨id, u, rfl, hu, h.units id u hu⟩

/-- What the parts of a catalog are read as. -/
def againParts (layout : Layout) (d : Document) : List (Part String CatalogUnit) :=
  (d.written layout).map
    (Part.map (fun id u => u.again layout.tabWidth layout.orderById id)
      (Node.reread layout.tabWidth 3))

theorem readParts_bodyBlocks_again (h : d.Sound)
    (hstable : Stable bodyVerdict [] (d.written layout)) :
    readParts bodyVerdict [] ((d.bodyBlocks layout).map (Block.node layout.tabWidth 3)) =
      some (d.againParts layout) := by
  refine readParts_blocks byHead_bodyVerdict ?_ ?_ hstable
  · intro id u seen hp hid
    rcases h.written hp with ⟨n, heq, -⟩ | ⟨j, v, heq, hv, hsound⟩
    · cases heq
    · cases heq
      exact ⟨_, CatalogUnit.node_block ..,
        CatalogUnit.bodyVerdict_again hsound hid layout.tabWidth layout.orderById⟩
  · intro n hp
    rcases h.written hp with ⟨m, heq, hm⟩ | ⟨j, v, heq, -⟩
    · cases heq
      exact ⟨hm.notText, hm.tidy⟩
    · cases heq

theorem readParts_bodyBlocks (h : d.Sound) (hread : d.AsRead)
    (hstable : Stable bodyVerdict [] (d.written layout)) :
    readParts bodyVerdict [] ((d.bodyBlocks layout).map (Block.node layout.tabWidth 3)) =
      some (d.rereadParts layout) := by
  have hsame : d.againParts layout = d.rereadParts layout := by
    apply List.map_congr_left
    intro p hp
    rcases h.written hp with ⟨n, rfl, -⟩ | ⟨id, u, rfl, hu, hsound⟩
    · rfl
    · rw [Part.map, Part.map, CatalogUnit.again_eq_reread hsound (hread.unit hu)]
  rw [readParts_bodyBlocks_again h hstable, hsame]

theorem blocks_rereadParts (h : d.Sound) (hread : d.AsRead) :
    (d.rereadParts layout).flatMap (Part.blocks (CatalogUnit.block layout.orderById)) =
      d.bodyBlocks layout := by
  rw [rereadParts, List.flatMap_map, bodyBlocks]
  refine List.flatMap_congr ?_
  intro p hp
  rcases h.written hp with ⟨n, rfl, hn⟩ | ⟨id, u, rfl, hu, hsound⟩
  · exact hn.tidy.blocks_reread hn.named layout.tabWidth 3
  · exact congrArg (fun b => [b])
      (CatalogUnit.block_reread hsound (hread.unit hu) layout.tabWidth layout.orderById)

theorem blocksAll_reread (h : d.Sound) (tab level : Nat) :
    Node.blocksAll (d.fileChildren.map (Node.reread tab level)) =
      Node.blocksAll d.fileChildren := by
  rw [Node.blocksAll_eq_flatMap, Node.blocksAll_eq_flatMap, List.flatMap_map]
  refine List.flatMap_congr ?_
  intro n hn
  have hsolid := (h.fileChildren n hn).1
  exact hsolid.tidy.blocks_reread hsolid.named tab level

theorem render_congr {d' : Document} {layout : Layout} {header header' : Header}
    (hheader : header'.attributes = header.attributes)
    (hattributes : d'.fileAttributes = d.fileAttributes)
    (hchildren : Node.blocksAll d'.fileChildren = Node.blocksAll d.fileChildren)
    (hbody : d'.bodyBlocks layout = d.bodyBlocks layout) :
    render layout d' header' = render layout d header := by
  rw [render_eq, render_eq, block, block, fileBlock, fileBlock, hheader, hattributes, hchildren,
    hbody]

section Recorded

variable (h : d.Sound) (hread : d.AsRead) (hlayout : layout.orderById = false)
include h hread hlayout

/-- The text of a catalog that was read, in the order of its file, is read as what stands for it. -/
theorem parse_render (path : String) (header : Header) :
    parse path (render layout d header) = .ok (d.reread layout header) := by
  have hstable : Stable bodyVerdict [] (d.written layout) := by
    obtain ⟨ps, hstable, hunits, hbody, -⟩ := hread
    rw [written_eq hstable.nodup.1 hunits hbody hlayout]
    exact hstable
  rw [parse_render_eq h, readParts_bodyBlocks h hread hstable]
  rfl

omit h in
theorem written_reread (header : Header) :
    (d.reread layout header).written layout = d.rereadParts layout := by
  refine written_eq ?_ ?_ ?_ hlayout
  · obtain ⟨ps, hstable, hunits, hbody, -⟩ := hread
    rw [rereadParts, Part.keys_map, written_eq hstable.nodup.1 hunits hbody hlayout]
    exact hstable.nodup.1
  · simp [reread, addParts, rereadHead, Dict.empty]
  · simp [reread, addParts, rereadHead]

/-- What stands for a catalog has the same text. -/
theorem render_reread (header : Header) :
    render layout (d.reread layout header) header = render layout d header := by
  refine render_congr rfl rfl (blocksAll_reread h layout.tabWidth 2) ?_
  rw [bodyBlocks, written_reread hread hlayout, blocks_rereadParts h hread]

end Recorded

end Document

/-- Writing a catalog that was read in the order of its file, reading the text and writing again
leads to the same text. -/
theorem render_parse_render {path text : String} {d : Document}
    (hparse : Document.parse path text = .ok d) (hnamed : Document.NamesIn text)
    (tab : Nat) (header : Header) :
    ∃ d', Document.parse path (render ⟨tab, false⟩ d header) = .ok d' ∧
      render ⟨tab, false⟩ d' header = render ⟨tab, false⟩ d header := by
  obtain ⟨h, hread⟩ := Document.parse_sound hparse hnamed
  exact ⟨d.reread ⟨tab, false⟩ header, Document.parse_render h hread rfl path header,
    Document.render_reread h hread rfl header⟩

/-- A catalog without metadata that repeats an identifier. -/
theorem render_parse_render_repeated :
    ∃ d d', Document.parse "app.xlf" ("<x><file n='1'><body><trans-unit id='k'>" ++
        "<b z='' a='&lt;'/></trans-unit> <!----><trans-unit id='k'/></body></file></x>") = .ok d ∧
      Document.parse "app.xlf" (render ⟨4, false⟩ d ⟨"app", "en", some "de", "", "plaintext"⟩) =
        .ok d' ∧
      render ⟨4, false⟩ d' ⟨"app", "en", some "de", "", "plaintext"⟩ =
        render ⟨4, false⟩ d ⟨"app", "en", some "de", "", "plaintext"⟩ := by
  have hreadable : Document.isReadable ("<x><file n='1'><body><trans-unit id='k'>" ++
      "<b z='' a='&lt;'/></trans-unit> <!----><trans-unit id='k'/></body></file></x>") = true := by
    decide +kernel
  obtain ⟨d, hd, hnamed⟩ := Document.exists_parse "app.xlf" hreadable
  obtain ⟨d', hd', hrender⟩ := render_parse_render hd hnamed 4
    ⟨"app", "en", some "de", "", "plaintext"⟩
  exact ⟨d, d', hd, hd', hrender⟩

end TranslationAudit.Catalog
