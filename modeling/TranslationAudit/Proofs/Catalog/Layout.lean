import TranslationAudit.Catalog.Render
import TranslationAudit.Proofs.Catalog.Part

/-! # Catalogs as blocks

* `TransUnit.block`, `PluralGroup.block`: the block of a unit and of a plural group.
* `PluralGroup.written`, `Document.written`: their parts in the order in which they are written.
* `Document.block`: the root block of a catalog; `render_eq`: the text of the catalog are its lines.
-/

namespace TranslationAudit.Catalog

open Markup (Block Node declaration indent joinLines)

/-! ## Attributes -/

theorem mergeAttributes_eq_append {known others : List (String × String)}
    (hnodup : (others.map Prod.fst).Nodup) (hnew : ∀ a ∈ others, a.1 ∉ known.map Prod.fst) :
    mergeAttributes known others = known ++ others := by
  rw [mergeAttributes]
  induction others generalizing known with
  | nil => simp
  | cons a others ih =>
    rw [List.map_cons, List.nodup_cons] at hnodup
    have ha : (known.any fun b => b.1 = a.1) = false := by
      rw [List.any_eq_false]
      intro b hb heq
      have hname : b.1 = a.1 := by simpa using heq
      exact hnew a List.mem_cons_self (hname ▸ List.mem_map_of_mem hb)
    have hothers : ∀ b ∈ others, b.1 ∉ (known ++ [a]).map Prod.fst := by
      intro b hb hm
      rw [List.map_append, List.mem_append, List.map_singleton, List.mem_singleton] at hm
      rcases hm with hm | hm
      · exact hnew b (List.mem_cons_of_mem a hb) hm
      · exact hnodup.1 (hm ▸ List.mem_map_of_mem hb)
    rw [List.foldl_cons, ha, if_neg (by simp), ih hnodup.2 hothers, List.append_assoc,
      List.singleton_append]

/-! ## Units -/

namespace TransUnit

/-- The block of a part of a unit. -/
def partBlocks (u : TransUnit) : UnitChild → List Block
  | .source => [.inline "source" u.sourceAttributes (u.source.getD "")]
  | .target =>
    if !u.hasTarget && (u.target.getD "").isEmpty then []
    else [.inline "target" u.allTargetAttributes (u.target.getD "")]
  | .foreign n => n.blocks

def noteBlock (n : Note) : Block :=
  .inline "note" (n.author.map fun a => ("from", a)).toList n.content

/-- The blocks within the element of a unit. -/
def innerBlocks (u : TransUnit) : List Block :=
  u.parts.flatMap u.partBlocks ++ u.notes.map noteBlock

def allAttributes (u : TransUnit) (id : String) : List (String × String) :=
  mergeAttributes [("id", id), ("xml:space", "preserve")] u.attributes

/-- The block of a unit. -/
def block (u : TransUnit) (id : String) : Block :=
  .nested "trans-unit" (u.allAttributes id) u.innerBlocks

theorem partLines_eq (tab level : Nat) (u : TransUnit) (c : UnitChild) :
    u.partLines tab level c = Block.linesAll tab level (u.partBlocks c) := by
  cases c with
  | source => rw [partLines, partBlocks, Block.linesAll_singleton, Block.lines, textLine]
  | target =>
    rw [partLines, partBlocks]
    split
    · rfl
    · rw [Block.linesAll_singleton, Block.lines, textLine]
  | foreign n => rw [partLines, partBlocks, Node.render_eq]

theorem notes_eq (tab level : Nat) (ns : List Note) :
    ns.map (noteLine tab level) = Block.linesAll tab level (ns.map noteBlock) := by
  induction ns with
  | nil => rfl
  | cons n ns ih =>
    rw [List.map_cons, List.map_cons, Block.linesAll, ih, noteBlock, Block.lines, noteLine,
      textLine]
    rfl

theorem unitLines_eq (tab level : Nat) (id : String) (u : TransUnit) :
    unitLines tab level id u = (u.block id).lines tab level := by
  have hclose : indent tab level ++ "</trans-unit>" =
      indent tab level ++ "</" ++ "trans-unit" ++ ">" := by
    rw [String.append_assoc, String.append_assoc]
    rfl
  have hparts : u.parts.flatMap (u.partLines tab (level + 1)) =
      Block.linesAll tab (level + 1) (u.parts.flatMap u.partBlocks) := by
    rw [Block.linesAll_flatMap]
    exact congrArg (fun f => u.parts.flatMap f) (funext fun c => partLines_eq tab (level + 1) u c)
  rw [unitLines, block, Block.lines, innerBlocks, Block.linesAll_append, hparts, notes_eq, hclose,
    allAttributes]
  simp only [List.append_assoc]

end TransUnit

/-! ## Plural groups -/

/-- A part of a group without its form. -/
def GroupChild.part : GroupChild → Part Nat Unit
  | .form i => .keyed i ()
  | .foreign n => .foreign n

namespace PluralGroup

/-- The parts of a group in the order in which they are written. -/
def written (orderById : Bool) (g : PluralGroup) : List (Part Nat TransUnit) :=
  Part.written orderById g.forms.get? id g.forms.entries (g.children.map GroupChild.part)

def allAttributes (g : PluralGroup) (id : String) : List (String × String) :=
  mergeAttributes [("id", id), ("restype", g.restype)] g.attributes

/-- The block of a form of a group. -/
def formBlock (id : String) (i : Nat) (u : TransUnit) : Block := u.block (pluralFormId id i)

/-- The block of a plural group. -/
def block (orderById : Bool) (g : PluralGroup) (id : String) : Block :=
  .nested "group" (g.allAttributes id)
    ((g.written orderById).flatMap (Part.blocks (formBlock id)))

theorem groupChildLines_eq (layout : Layout) (id : String) (g : PluralGroup) (seen : List Nat)
    (cs : List GroupChild) :
    groupChildLines layout id g seen cs =
      ((Part.recorded layout.orderById g.forms.get? seen (cs.map GroupChild.part)).1.flatMap
          fun p => Block.linesAll layout.tabWidth 4 (p.blocks (formBlock id)),
        (Part.recorded layout.orderById g.forms.get? seen (cs.map GroupChild.part)).2) := by
  induction cs generalizing seen with
  | nil => rfl
  | cons c cs ih =>
    cases c with
    | foreign n =>
      rw [groupChildLines, ih, List.map_cons, GroupChild.part, Part.recorded]
      simp only [List.flatMap_cons, Part.blocks, Node.render_eq]
    | form i =>
      rw [groupChildLines, List.map_cons, GroupChild.part, Part.recorded]
      cases (if layout.orderById || seen.contains i then none else g.forms.get? i) with
      | none => exact ih seen
      | some u =>
        simp only [ih, List.flatMap_cons, Part.blocks, Block.linesAll_singleton, formBlock,
          TransUnit.unitLines_eq]

theorem groupLines_eq (layout : Layout) (id : String) (g : PluralGroup) :
    groupLines layout id g = (g.block layout.orderById id).lines layout.tabWidth 3 := by
  have hclose : indent layout.tabWidth 3 ++ "</group>" =
      indent layout.tabWidth 3 ++ "</" ++ "group" ++ ">" := by
    rw [String.append_assoc, String.append_assoc]
    rfl
  rw [groupLines, block, Block.lines, written, Part.written, groupChildLines_eq, hclose,
    allAttributes]
  simp only [id_eq, List.append_assoc, List.flatMap_append, Block.linesAll_append,
    Block.linesAll_flatMap, List.flatMap_map, Part.blocks, Block.linesAll_singleton, formBlock,
    TransUnit.unitLines_eq]

end PluralGroup

/-! ## Documents -/

/-- The block of what an identifier names. -/
def CatalogUnit.block (orderById : Bool) (id : String) : CatalogUnit → Block
  | .single u => u.block id
  | .plural g => g.block orderById id

theorem catalogUnitLines_eq (layout : Layout) (id : String) (u : CatalogUnit) :
    catalogUnitLines layout id u =
      (u.block layout.orderById id).lines layout.tabWidth 3 := by
  cases u with
  | single u => exact TransUnit.unitLines_eq layout.tabWidth 3 id u
  | plural g => exact PluralGroup.groupLines_eq layout id g

/-- A part of a body without its unit. -/
def BodyNode.part : BodyNode → Part String Unit
  | .unit id => .keyed id ()
  | .foreign n => .foreign n

theorem bodyLines_eq (layout : Layout) (units : Dict String CatalogUnit) (seen : List String)
    (cs : List BodyNode) :
    bodyLines layout units seen cs =
      ((Part.recorded layout.orderById units.get? seen (cs.map BodyNode.part)).1.flatMap
          fun p => Block.linesAll layout.tabWidth 3
            (p.blocks (CatalogUnit.block layout.orderById)),
        (Part.recorded layout.orderById units.get? seen (cs.map BodyNode.part)).2) := by
  induction cs generalizing seen with
  | nil => rfl
  | cons c cs ih =>
    cases c with
    | foreign n =>
      rw [bodyLines, ih, List.map_cons, BodyNode.part, Part.recorded]
      simp only [List.flatMap_cons, Part.blocks, Node.render_eq]
    | unit id =>
      rw [bodyLines, List.map_cons, BodyNode.part, Part.recorded]
      cases (if layout.orderById || seen.contains id then none else units.get? id) with
      | none => exact ih seen
      | some u =>
        simp only [ih, List.flatMap_cons, Part.blocks, Block.linesAll_singleton,
          catalogUnitLines_eq]

namespace Document

/-- The parts of a body in the order in which they are written. -/
def written (layout : Layout) (d : Document) : List (Part String CatalogUnit) :=
  Part.written layout.orderById d.units.get? (Text.sortNatural Prod.fst) d.units.entries
    (d.body.map BodyNode.part)

/-- The blocks within the body. -/
def bodyBlocks (layout : Layout) (d : Document) : List Block :=
  (d.written layout).flatMap (Part.blocks (CatalogUnit.block layout.orderById))

/-- The block of the file element. -/
def fileBlock (layout : Layout) (d : Document) (h : Header) : Block :=
  .nested "file" (mergeAttributes h.attributes d.fileAttributes)
    (Node.blocksAll d.fileChildren ++ [.nested "body" [] (d.bodyBlocks layout)])

/-- The root block of a catalog. -/
def block (layout : Layout) (d : Document) (h : Header) : Block :=
  .nested "xliff" [("xmlns", "urn:oasis:names:tc:xliff:document:1.2"), ("version", "1.2")]
    [d.fileBlock layout h]

end Document

theorem lines_eq (layout : Layout) (d : Document) (h : Header) :
    lines layout d h =
      headLines layout d h ++ Block.linesAll layout.tabWidth 3 (d.bodyBlocks layout) ++
        footLines layout := by
  simp only [lines, bodyLines_eq, Document.bodyBlocks, Document.written, Part.written,
    List.flatMap_append,
    Block.linesAll_append, Block.linesAll_flatMap, List.flatMap_map, Part.blocks,
    Block.linesAll_singleton, catalogUnitLines_eq, List.append_assoc]

theorem indent_zero (tab : Nat) : indent tab 0 = "" := by simp [indent]

/-- The text of a catalog are the lines of its root block behind a declaration. -/
theorem render_eq (layout : Layout) (d : Document) (h : Header) :
    render layout d h =
      joinLines (declaration :: (d.block layout h).lines layout.tabWidth 0) := by
  have hopen : "" ++ "<" ++ Markup.tagText "xliff"
      [("xmlns", "urn:oasis:names:tc:xliff:document:1.2"), ("version", "1.2")] ++ ">" =
      "<xliff xmlns=\"urn:oasis:names:tc:xliff:document:1.2\" version=\"1.2\">" := by decide
  have hclose : "" ++ "</" ++ "xliff" ++ ">" = "</xliff>" := by decide
  have hbody : "<" ++ (Markup.tagText "body" [] ++ ">") = "<body>" := by decide
  have hbodyEnd : "</" ++ ("body" ++ ">") = "</body>" := by decide
  have hfileEnd : "</" ++ ("file" ++ ">") = "</file>" := by decide
  rw [render, lines_eq, ← joinLines, headLines, footLines, Markup.Node.renderAll_eq,
    Document.block, Block.lines, indent_zero, hopen, hclose, Block.linesAll_singleton,
    Document.fileBlock, Block.lines, Block.linesAll_append, Block.linesAll_singleton, Block.lines]
  simp only [String.append_assoc, hbody, hbodyEnd, hfileEnd, List.append_assoc, List.cons_append,
    List.nil_append, declaration]

end TranslationAudit.Catalog
