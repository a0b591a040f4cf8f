import TranslationAudit.Proofs.Catalog.Sound

/-! # Units read back

* `TransUnit.AsRead`: units whose fields agree with their children, as in those that were read.
* `sound_readUnit`, `asRead_readUnit`: every unit that was read is such a unit.
* `TransUnit.reread`: the unit that stands for a unit after writing and reading.
* `readUnit_block`, `block_reread`: it is what the block of the unit is read as, and it has the same
  block again.
-/

namespace TranslationAudit

namespace Markup

/-! ## Elements as nodes -/

theorem attributesNamed_of_tidy {e : Element} (htidy : e.toNode.Tidy) (hnamed : e.toNode.Named) :
    AttributesNamed e.attributes := by
  obtain _ | _ | ⟨hnodup, -, -⟩ := htidy
  obtain _ | _ | ⟨-, hnames, -⟩ := hnamed
  exact ⟨hnames, hnodup⟩

theorem tidy_of_mem_children {e : Element} (h : e.toNode.Tidy) : ∀ n ∈ e.children, n.Tidy := by
  obtain _ | _ | ⟨-, hchildren, -⟩ := h
  exact hchildren

theorem named_of_mem_children {e : Element} (h : e.toNode.Named) :
    ∀ n ∈ e.children, n.Named := by
  obtain _ | _ | ⟨-, -, hchildren⟩ := h
  exact hchildren

theorem toNode_mem_children {root e : Element} (h : e ∈ root.elements) :
    e.toNode ∈ root.children := by
  obtain ⟨n, hn, he⟩ := List.mem_filterMap.1 h
  cases n with
  | element name attributes children =>
    cases he
    exact hn
  | _ => cases he

theorem toNode_inj {e f : Element} : e.toNode = f.toNode ↔ e = f := by
  obtain ⟨name, attributes, children⟩ := e
  obtain ⟨name', attributes', children'⟩ := f
  simp [Element.toNode]

theorem filterMap_notTexts (ns : List Node) :
    (Node.notTexts ns).filterMap Node.element? = ns.filterMap Node.element? := by
  induction ns with
  | nil => rfl
  | cons n ns ih =>
    cases n with
    | text s => exact ih
    | comment s => exact ih
    | element name attributes children => exact congrArg (List.cons _) ih

theorem elements_contents (name : String) (attributes : List (String × String))
    (tab level : Nat) (parts : List Block) :
    Element.elements ⟨name, attributes, Block.contents tab level parts⟩ =
      (parts.map (Block.node tab (level + 1))).filterMap Node.element? := by
  rw [Element.elements, ← filterMap_notTexts, Block.notTexts_contents, filterMap_notTexts]

theorem map_node_blocksAll {ns : List Node} (h : ∀ n ∈ ns, n.isText = false) (tab level : Nat) :
    (Node.blocksAll ns).map (Block.node tab level) = ns.map (Node.reread tab level) := by
  induction ns with
  | nil => rfl
  | cons n ns ih =>
    obtain ⟨b, hb, hnode, -⟩ := Node.exists_block (h n List.mem_cons_self) tab level
    rw [Node.blocksAll, List.map_append, hb, List.map_singleton, hnode,
      ih fun m hm => h m (List.mem_cons_of_mem n hm), List.singleton_append, List.map_cons]

/-- The children of an element that holds a text only. -/
def inlineChildren (s : String) : List Node := if s.isEmpty then [] else [.text s]

theorem directText_inline (name : String) (attributes : List (String × String)) (s : String) :
    Element.directText ⟨name, attributes, inlineChildren s⟩ = s := by
  rw [Element.directText, inlineChildren]
  split
  · next hs =>
    have hempty : s = "" := by simpa using hs
    rw [hempty]
    rfl
  · simp [Node.text?]

end Markup

namespace Catalog

open Markup (Block Element Node inlineChildren)

namespace UnitChild

def isSource : UnitChild → Bool
  | source => true
  | _ => false

def isTarget : UnitChild → Bool
  | target => true
  | _ => false

end UnitChild

namespace TransUnit

/-- Units whose fields agree with their children. -/
structure AsRead (u : TransUnit) : Prop where
  hasSource : u.hasSource = u.children.any UnitChild.isSource
  source : u.source.isSome = u.children.any UnitChild.isSource
  sourceAttributes : u.children.any UnitChild.isSource = false → u.sourceAttributes = []
  hasTarget : u.hasTarget = u.children.any UnitChild.isTarget
  target : u.target.isSome = u.children.any UnitChild.isTarget
  state : u.children.any UnitChild.isTarget = false → u.state = none
  targetAttributes : u.children.any UnitChild.isTarget = false → u.targetAttributes = []
  notes : u.notes = []

end TransUnit

/-! ## The parts of a unit's element -/

/-- A node that is neither a source nor a target. -/
def IsForeign (n : Node) : Prop :=
  ∀ e, n.element? = some e → e.name ≠ "source" ∧ e.name ≠ "target"

theorem unitNode_cases (n : Node) :
    n.isText = true ∨ (∃ attributes children, n = .element "source" attributes children) ∨
      (∃ attributes children, n = .element "target" attributes children) ∨
      (n.isText = false ∧ IsForeign n) := by
  cases n with
  | text s => exact .inl rfl
  | comment s => exact .inr (.inr (.inr ⟨rfl, by simp [IsForeign, Node.element?]⟩))
  | element name attributes children =>
    by_cases hsource : name = "source"
    · exact .inr (.inl ⟨attributes, children, by rw [hsource]⟩)
    · by_cases htarget : name = "target"
      · exact .inr (.inr (.inl ⟨attributes, children, by rw [htarget]⟩))
      · refine .inr (.inr (.inr ⟨rfl, ?_⟩))
        intro e he
        cases he
        exact ⟨hsource, htarget⟩

theorem readUnitChild_text {n : Node} (hn : n.isText = true) (v : TransUnit) :
    readUnitChild v n = v := by
  cases n with
  | text s => rfl
  | _ => cases hn

theorem readUnitChild_source (attributes : List (String × String)) (children : List Node)
    (v : TransUnit) :
    readUnitChild v (.element "source" attributes children) =
      { v with
        hasSource := true
        source := some (Element.directText ⟨"source", attributes, children⟩)
        sourceAttributes := attributes
        children := v.children ++ [.source] } := rfl

theorem readUnitChild_target (attributes : List (String × String)) (children : List Node)
    (v : TransUnit) :
    readUnitChild v (.element "target" attributes children) =
      { v with
        hasTarget := true
        target := some (Element.directText ⟨"target", attributes, children⟩)
        state := Element.attribute? ⟨"target", attributes, children⟩ "state"
        targetAttributes := Element.attributesExcept ⟨"target", attributes, children⟩ ["state"]
        children := v.children ++ [.target] } := rfl

theorem readUnitChild_foreign {n : Node} (hn : n.isText = false) (h : IsForeign n)
    (v : TransUnit) :
    readUnitChild v n = { v with children := v.children ++ [.foreign n] } := by
  cases n with
  | text s => cases hn
  | comment s => rfl
  | element name attributes children =>
    obtain ⟨hsource, htarget⟩ := h _ rfl
    simp only [readUnitChild, hsource, htarget, if_false]

/-! ## What reading makes sure of -/

theorem asRead_readUnitChild {u : TransUnit} (h : u.AsRead) (n : Node) :
    (readUnitChild u n).AsRead := by
  obtain ⟨h1, h2, h3, h4, h5, h6, h7, h8⟩ := h
  have more (c : UnitChild) (p : UnitChild → Bool) :
      (u.children ++ [c]).any p = (u.children.any p || p c) := by
    rw [List.any_append, List.any_cons, List.any_nil, Bool.or_false]
  rcases unitNode_cases n with hn | ⟨attributes, children, rfl⟩ | ⟨attributes, children, rfl⟩ |
    ⟨hn, hforeign⟩
  · rw [readUnitChild_text hn]
    exact ⟨h1, h2, h3, h4, h5, h6, h7, h8⟩
  · rw [readUnitChild_source]
    constructor <;> simp only [more, UnitChild.isSource, UnitChild.isTarget, Bool.or_true,
      Bool.or_false, Option.isSome_some, reduceCtorEq, false_implies] <;> assumption
  · rw [readUnitChild_target]
    constructor <;> simp only [more, UnitChild.isSource, UnitChild.isTarget, Bool.or_true,
      Bool.or_false, Option.isSome_some, reduceCtorEq, false_implies] <;> assumption
  · rw [readUnitChild_foreign hn hforeign]
    constructor <;> simp only [more, UnitChild.isSource, UnitChild.isTarget,
      Bool.or_false] <;> assumption

/-- The fields of a unit that was read agree with its children. -/
theorem asRead_readUnit (e : Element) : (readUnit e).AsRead := by
  have hfold (ns : List Node) (u : TransUnit) (hu : u.AsRead) :
      (ns.foldl readUnitChild u).AsRead := by
    induction ns generalizing u with
    | nil => exact hu
    | cons n ns ih => exact ih _ (asRead_readUnitChild hu n)
  apply hfold
  constructor <;> simp

theorem sound_readUnitChild {u : TransUnit} (h : u.Sound) {n : Node} (htidy : n.Tidy)
    (hnamed : n.Named) : (readUnitChild u n).Sound := by
  have others {c : UnitChild} (hc : ∀ m, c ≠ .foreign m) {m : Node}
      (hm : .foreign m ∈ u.children ++ [c]) : .foreign m ∈ u.children := by
    rcases List.mem_append.1 hm with hm | hm
    · exact hm
    · exact absurd (List.mem_singleton.1 hm).symm (hc m)
  have hattributes {name : String} {attributes : List (String × String)} {children : List Node}
      (hn : n = .element name attributes children) : Markup.AttributesNamed attributes := by
    subst hn
    exact Markup.attributesNamed_of_tidy (e := ⟨name, attributes, children⟩) htidy hnamed
  rcases unitNode_cases n with hn | ⟨attributes, children, hn⟩ | ⟨attributes, children, hn⟩ |
    ⟨hn, hforeign⟩
  · rw [readUnitChild_text hn]
    exact h
  · rw [hn, readUnitChild_source]
    exact ⟨h.attributes, hattributes hn, h.targetAttributes,
      fun m hm => h.solid m (others (by simp) hm), fun m hm => h.foreign m (others (by simp) hm)⟩
  · rw [hn, readUnitChild_target]
    exact ⟨h.attributes, h.sourceAttributes, .of_except (hattributes hn),
      fun m hm => h.solid m (others (by simp) hm), fun m hm => h.foreign m (others (by simp) hm)⟩
  · rw [readUnitChild_foreign hn hforeign]
    refine ⟨h.attributes, h.sourceAttributes, h.targetAttributes, ?_, ?_⟩
    · intro m hm
      rcases List.mem_append.1 hm with hm | hm
      · exact h.solid m hm
      · cases List.mem_singleton.1 hm
        exact ⟨hn, htidy, hnamed⟩
    · intro m hm
      rcases List.mem_append.1 hm with hm | hm
      · exact h.foreign m hm
      · cases List.mem_singleton.1 hm
        exact hforeign

theorem sound_readUnit {e : Element} (htidy : e.toNode.Tidy) (hnamed : e.toNode.Named) :
    (readUnit e).Sound := by
  have hfold (ns : List Node) (hns : ∀ n ∈ ns, n.Tidy ∧ n.Named) (u : TransUnit) (hu : u.Sound) :
      (ns.foldl readUnitChild u).Sound := by
    induction ns generalizing u with
    | nil => exact hu
    | cons n ns ih =>
      obtain ⟨hn, hnn⟩ := hns n List.mem_cons_self
      exact ih (fun m hm => hns m (List.mem_cons_of_mem n hm)) _ (sound_readUnitChild hu hn hnn)
  refine hfold e.children ?_ _ ?_
  · intro n hn
    exact ⟨Markup.tidy_of_mem_children htidy n hn, Markup.named_of_mem_children hnamed n hn⟩
  · exact ⟨.of_except (Markup.attributesNamed_of_tidy htidy hnamed), .nil, .nil,
      by simp, by simp⟩

/-! ## Writing and reading -/

namespace TransUnit

/-- What stands for a part of a unit after writing and reading. -/
def rereadChild (tab level : Nat) : UnitChild → UnitChild
  | .foreign n => .foreign (n.reread tab level)
  | c => c

/-- The unit that stands for a unit, whose element is at a level, after writing and reading. A unit
without children gains a source. -/
def reread (tab level : Nat) (u : TransUnit) : TransUnit :=
  if u.children.isEmpty then
    { u with source := some "", hasSource := true, children := [.source] }
  else { u with children := u.children.map (rereadChild tab (level + 1)) }

/-- The node that the block of a part is read as. -/
def partNode (tab level : Nat) (u : TransUnit) : UnitChild → Node
  | .source => .element "source" u.sourceAttributes (inlineChildren (u.source.getD ""))
  | .target => .element "target" u.allTargetAttributes (inlineChildren (u.target.getD ""))
  | .foreign n => n.reread tab level

theorem attribute?_target {u : TransUnit} (h : u.Sound) (children : List Node) :
    Element.attribute? ⟨"target", u.allTargetAttributes, children⟩ "state" = u.state := by
  rw [Element.attribute?, allTargetAttributes,
    h.targetAttributes.lookup_merge (mem_state u.state) (by simp)]
  cases u.state <;> rfl

theorem attributesExcept_target {u : TransUnit} (h : u.Sound) (children : List Node) :
    Element.attributesExcept ⟨"target", u.allTargetAttributes, children⟩ ["state"] =
      u.targetAttributes :=
  h.targetAttributes.except_merge (mem_state u.state) "target" children

theorem isForeign_reread {u : TransUnit} (h : u.Sound) {n : Node} (hn : .foreign n ∈ u.children)
    (tab level : Nat) : IsForeign (n.reread tab level) := by
  intro e he
  have hsolid := h.solid n hn
  cases n with
  | text s => cases hsolid.notText
  | comment s =>
    rw [Node.reread_comment] at he
    cases he
  | element name attributes children =>
    obtain ⟨children', hread⟩ := Node.reread_element tab level name attributes children
    rw [hread] at he
    cases he
    exact h.foreign _ hn ⟨name, attributes, children⟩ rfl

theorem foldl_partNode {u : TransUnit} (h : u.Sound) (tab level : Nat) {cs : List UnitChild}
    (hcs : ∀ n, .foreign n ∈ cs → .foreign n ∈ u.children) (v : TransUnit) :
    (cs.map (u.partNode tab level)).foldl readUnitChild v =
      { v with
        hasSource := v.hasSource || cs.any UnitChild.isSource
        source := if cs.any UnitChild.isSource then some (u.source.getD "") else v.source
        sourceAttributes :=
          if cs.any UnitChild.isSource then u.sourceAttributes else v.sourceAttributes
        hasTarget := v.hasTarget || cs.any UnitChild.isTarget
        target := if cs.any UnitChild.isTarget then some (u.target.getD "") else v.target
        state := if cs.any UnitChild.isTarget then u.state else v.state
        targetAttributes :=
          if cs.any UnitChild.isTarget then u.targetAttributes else v.targetAttributes
        children := v.children ++ cs.map (rereadChild tab level) } := by
  induction cs generalizing v with
  | nil => simp
  | cons c cs ih =>
    have hrest : ∀ n, .foreign n ∈ cs → .foreign n ∈ u.children :=
      fun n hn => hcs n (List.mem_cons_of_mem c hn)
    rw [List.map_cons, List.foldl_cons]
    cases c with
    | source =>
      rw [partNode, readUnitChild_source, Markup.directText_inline, ih hrest]
      simp [UnitChild.isSource, UnitChild.isTarget, rereadChild]
    | target =>
      rw [partNode, readUnitChild_target, Markup.directText_inline, attribute?_target h,
        attributesExcept_target h, ih hrest]
      simp [UnitChild.isSource, UnitChild.isTarget, rereadChild]
    | foreign n =>
      have hn := hcs n List.mem_cons_self
      have hsolid := h.solid n hn
      have hforeign := isForeign_reread h hn tab level
      rw [partNode, readUnitChild_foreign (Node.isText_reread hsolid.notText tab level) hforeign,
        ih hrest]
      simp [UnitChild.isSource, UnitChild.isTarget, rereadChild]

/-- Parts are read as nodes of their own, if a target among them is not left out. -/
theorem map_node_parts {u : TransUnit} (h : u.Sound)
    (htarget : .target ∈ u.parts → (!u.hasTarget && (u.target.getD "").isEmpty) = false)
    (tab level : Nat) :
    (u.parts.flatMap u.partBlocks).map (Block.node tab level) =
      u.parts.map (u.partNode tab level) := by
  have hpart : ∀ c ∈ u.parts, (u.partBlocks c).map (Block.node tab level) =
      [u.partNode tab level c] := by
    intro c hc
    cases c with
    | source => rw [partBlocks, List.map_singleton, Block.node, partNode, inlineChildren]
    | target =>
      rw [partBlocks, htarget hc, if_neg (by simp), List.map_singleton, Block.node, partNode,
        inlineChildren]
    | foreign n =>
      have hsolid := h.solid n (foreign_mem_parts hc)
      obtain ⟨b, hb, hnode, -⟩ := Node.exists_block hsolid.notText tab level
      rw [partBlocks, hb, List.map_singleton, hnode, partNode]
  rw [List.map_flatMap]
  generalize u.parts = cs at hpart
  induction cs with
  | nil => rfl
  | cons c cs ih =>
    rw [List.flatMap_cons, hpart c List.mem_cons_self, List.map_cons,
      ih fun d hd => hpart d (List.mem_cons_of_mem c hd), List.singleton_append]

theorem map_node_innerBlocks {u : TransUnit} (h : u.Sound) (hread : u.AsRead) (tab level : Nat) :
    u.innerBlocks.map (Block.node tab level) = u.parts.map (u.partNode tab level) := by
  have htarget (hc : .target ∈ u.parts) : u.hasTarget = true := by
    rw [parts] at hc
    split at hc
    · next hempty =>
      have hnone : u.target = none := by
        have hsome := hread.target
        rw [List.isEmpty_iff.1 hempty] at hsome
        simpa using hsome
      rw [hnone] at hc
      simp at hc
    · rw [hread.hasTarget, List.any_eq_true]
      exact ⟨.target, hc, rfl⟩
  rw [innerBlocks, hread.notes, List.map_nil, List.append_nil]
  exact map_node_parts h (fun hc => by rw [htarget hc]; rfl) tab level

theorem foldl_notTexts (ns : List Node) (u : TransUnit) :
    (Node.notTexts ns).foldl readUnitChild u = ns.foldl readUnitChild u := by
  induction ns generalizing u with
  | nil => rfl
  | cons n ns ih =>
    cases n with
    | text s => exact ih u
    | comment s => exact ih _
    | element name attributes children => exact ih _

theorem parts_of_isEmpty {u : TransUnit} (hread : u.AsRead) (h : u.children.isEmpty = true) :
    u.parts = [.source] := by
  have htarget : u.target = none := by
    have hsome := hread.target
    rw [List.isEmpty_iff.1 h] at hsome
    simpa using hsome
  rw [parts, h, htarget]
  rfl

theorem parts_of_not_isEmpty {u : TransUnit} (h : u.children.isEmpty = false) :
    u.parts = u.children := by
  rw [parts, h]
  rfl

theorem reread_of_isEmpty {u : TransUnit} (h : u.children.isEmpty = true) (tab level : Nat) :
    u.reread tab level =
      { u with source := some "", hasSource := true, children := [.source] } := by
  rw [reread, if_pos h]

theorem reread_of_not_isEmpty {u : TransUnit} (h : u.children.isEmpty = false)
    (tab level : Nat) :
    u.reread tab level =
      { u with children := u.children.map (rereadChild tab (level + 1)) } := by
  rw [reread, h]
  rfl

theorem ite_some_getD {b : Bool} {o : Option String} (h : o.isSome = b) :
    (if b then some (o.getD "") else none) = o := by
  cases o with
  | none => rw [← h]; rfl
  | some s => rw [← h]; rfl

theorem ite_eq_left {α : Type} {b : Bool} {x y : α} (h : b = false → x = y) :
    (if b then x else y) = x := by
  cases b with
  | true => rfl
  | false => rw [h rfl]; rfl

/-- The element of a unit is read by its blocks. -/
theorem readUnit_contents {u : TransUnit} (h : u.Sound) (id : String) (tab level : Nat) :
    readUnit ⟨"trans-unit", u.allAttributes id, Block.contents tab level u.innerBlocks⟩ =
      (u.innerBlocks.map (Block.node tab (level + 1))).foldl readUnitChild
        { attributes := u.attributes } := by
  have hattributes : Element.attributesExcept ⟨"trans-unit", u.allAttributes id,
      Block.contents tab level u.innerBlocks⟩ ["id", "xml:space"] = u.attributes :=
    h.attributes.except_merge (mem_own id) "trans-unit" _
  rw [readUnit, hattributes, ← foldl_notTexts, Block.notTexts_contents, foldl_notTexts]

/-- The block of a unit is read as the unit that stands for it. -/
theorem readUnit_block {u : TransUnit} (h : u.Sound) (hread : u.AsRead) (id : String)
    (tab level : Nat) :
    readUnit ⟨"trans-unit", u.allAttributes id, Block.contents tab level u.innerBlocks⟩ =
      u.reread tab level := by
  rw [readUnit_contents h, map_node_innerBlocks h hread,
    foldl_partNode h tab (level + 1) fun n => foreign_mem_parts]
  obtain ⟨h1, h2, h3, h4, h5, h6, h7, h8⟩ := hread
  cases hempty : u.children.isEmpty with
  | true =>
    have hparts := parts_of_isEmpty ⟨h1, h2, h3, h4, h5, h6, h7, h8⟩ hempty
    have hnil := List.isEmpty_iff.1 hempty
    rw [hnil, List.any_nil] at h1 h2 h3 h4 h5 h6 h7
    rw [hparts, reread_of_isEmpty hempty]
    have hsource : u.source = none := by simpa using h2
    have htarget : u.target = none := by simpa using h5
    simp [UnitChild.isSource, UnitChild.isTarget, rereadChild, h3, h4, h6, h7, h8, hsource,
      htarget]
  | false =>
    rw [parts_of_not_isEmpty hempty, reread_of_not_isEmpty hempty]
    simp only [ite_some_getD h2, ite_some_getD h5, ite_eq_left h3, ite_eq_left h6,
      ite_eq_left h7, Bool.false_or, h1, h4, List.nil_append, h8]

theorem block_reread {u : TransUnit} (h : u.Sound) (hread : u.AsRead) (tab level : Nat)
    (id : String) : (u.reread tab level).block id = u.block id := by
  cases hempty : u.children.isEmpty with
  | true =>
    have hsource : u.source = none := by
      have hsome := hread.source
      rw [List.isEmpty_iff.1 hempty] at hsome
      simpa using hsome
    have hinner : (u.reread tab level).innerBlocks = u.innerBlocks := by
      rw [innerBlocks, innerBlocks, parts_of_isEmpty hread hempty, reread_of_isEmpty hempty]
      simp only [parts, List.isEmpty_cons, Bool.false_eq_true, if_false, List.flatMap_cons,
        List.flatMap_nil, partBlocks, hsource, Option.getD_some, Option.getD_none]
    rw [block, block, hinner, reread_of_isEmpty hempty]
    rfl
  | false =>
    have hpart : ∀ c ∈ u.parts, (u.reread tab level).partBlocks (rereadChild tab (level + 1) c) =
        u.partBlocks c := by
      intro c hc
      rw [reread_of_not_isEmpty hempty]
      cases c with
      | source => rfl
      | target => rfl
      | foreign n =>
        have hsolid := h.solid n (foreign_mem_parts hc)
        exact hsolid.tidy.blocks_reread hsolid.named tab (level + 1)
    have hparts : (u.reread tab level).parts = u.parts.map (rereadChild tab (level + 1)) := by
      rw [reread_of_not_isEmpty hempty, parts_of_not_isEmpty hempty]
      exact parts_of_not_isEmpty (by simpa using hempty)
    have hinner : (u.reread tab level).innerBlocks = u.innerBlocks := by
      rw [innerBlocks, innerBlocks, hparts, List.flatMap_map, List.flatMap_congr hpart,
        reread_of_not_isEmpty hempty]
    rw [block, block, hinner, reread_of_not_isEmpty hempty]
    rfl

end TransUnit

end Catalog

end TranslationAudit
