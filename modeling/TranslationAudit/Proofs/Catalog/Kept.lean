import TranslationAudit.Proofs.Catalog.Edit
import TranslationAudit.Proofs.Catalog.Matching

/-! # What is kept of a catalog file

* `SameTexts`: elements of units with the same texts.
* `sameTexts_readUnit`: the block of a unit is read as an element with the texts of the element that
  the unit was read from.
* `BodyKept`, `FileKept`: what is left of a body and of a file of which units were deleted.
* `fileKept`: a changed catalog keeps all of the file it was read from but what was deleted.
-/

namespace TranslationAudit.Catalog

open Markup (Block Element Node inlineChildren)

/-! ## The texts of a unit's element -/

/-- The texts directly within the elements of a name. -/
def textsOf (name : String) (ns : List Node) : List String :=
  ((ns.filterMap Node.element?).filter (·.name = name)).map Element.directText

/-- As many texts as there are, each of them the last. -/
def lastOfAll (texts : List String) : List String :=
  List.replicate texts.length (texts.getLast?.getD "")

/-- An element of a unit that has the texts of another and its other children. Of several sources or
targets the last counts, and a unit without children gains a source. -/
structure SameTexts (e e' : Element) : Prop where
  sources : textsOf "source" e'.children = lastOfAll (textsOf "source" e.children) ∨
    Node.notTexts e.children = [] ∧ textsOf "source" e'.children = [""]
  targets : textsOf "target" e'.children = lastOfAll (textsOf "target" e.children)
  others : ∀ n ∈ e.children, n.isText = false → IsForeign n → ∃ n' ∈ e'.children, n.SameForm n'

theorem textsOf_notTexts (name : String) (ns : List Node) :
    textsOf name (Node.notTexts ns) = textsOf name ns := by
  rw [textsOf, Markup.filterMap_notTexts, textsOf]

theorem textsOf_cons_element (name tag : String) (attributes : List (String × String))
    (children ns : List Node) :
    textsOf name (.element tag attributes children :: ns) =
      if tag = name then Element.directText ⟨tag, attributes, children⟩ :: textsOf name ns
      else textsOf name ns := by
  rw [textsOf, List.filterMap_cons]
  simp only [Node.element?, List.filter_cons]
  by_cases htag : tag = name <;> simp [htag, textsOf]

theorem textsOf_cons_foreign {name : String} (hname : name = "source" ∨ name = "target")
    {n : Node} (h : IsForeign n) (ns : List Node) : textsOf name (n :: ns) = textsOf name ns := by
  cases n with
  | text s => rfl
  | comment s => rfl
  | element tag attributes children =>
    have htag : tag ≠ name := by
      rcases hname with rfl | rfl
      · exact (h ⟨tag, attributes, children⟩ rfl).1
      · exact (h ⟨tag, attributes, children⟩ rfl).2
    rw [textsOf_cons_element, if_neg htag]

/-! ### As they are read -/

/-- The part of a unit that a node is read as. -/
def UnitChild.ofNode (n : Node) : UnitChild :=
  match n.element? with
  | none => .foreign n
  | some e =>
    if e.name = "source" then .source else if e.name = "target" then .target else .foreign n

theorem UnitChild.ofNode_foreign {n : Node} (h : IsForeign n) : ofNode n = .foreign n := by
  rw [ofNode]
  cases he : n.element? with
  | none => rfl
  | some e =>
    obtain ⟨hsource, htarget⟩ := h e he
    simp only [hsource, htarget, if_false]

/-- A unit has one part for each node of its element. -/
theorem children_foldl_readUnitChild (ns : List Node) (v : TransUnit) :
    (ns.foldl readUnitChild v).children =
      v.children ++ (Node.notTexts ns).map UnitChild.ofNode := by
  induction ns generalizing v with
  | nil => simp [Node.notTexts]
  | cons n ns ih =>
    rw [List.foldl_cons, ih]
    rcases unitNode_cases n with hn | ⟨attributes, children, rfl⟩ | ⟨attributes, children, rfl⟩ |
      ⟨hn, hforeign⟩
    · rw [readUnitChild_text hn]
      simp [Node.notTexts, hn]
    · rw [readUnitChild_source]
      simp [Node.notTexts, Node.isText, UnitChild.ofNode, Node.element?]
    · rw [readUnitChild_target]
      simp [Node.notTexts, Node.isText, UnitChild.ofNode, Node.element?]
    · rw [readUnitChild_foreign hn hforeign]
      simp [Node.notTexts, hn, UnitChild.ofNode_foreign hforeign]

theorem getLast?_cons_or (s : String) (ss : List String) (o : Option String) :
    (s :: ss).getLast?.or o = ss.getLast?.or (some s) := by
  rw [List.getLast?_cons]
  cases ss.getLast? <;> rfl

/-- The last source and the last target of an element are those of its unit. -/
theorem texts_foldl_readUnitChild (ns : List Node) (v : TransUnit) :
    (ns.foldl readUnitChild v).source = (textsOf "source" ns).getLast?.or v.source ∧
      (ns.foldl readUnitChild v).target = (textsOf "target" ns).getLast?.or v.target := by
  induction ns generalizing v with
  | nil => exact ⟨rfl, rfl⟩
  | cons n ns ih =>
    obtain ⟨hsource, htarget⟩ := ih (readUnitChild v n)
    rw [List.foldl_cons, hsource, htarget]
    rcases unitNode_cases n with hn | ⟨attributes, children, rfl⟩ | ⟨attributes, children, rfl⟩ |
      ⟨hn, hforeign⟩
    · cases n with
      | text s => exact ⟨rfl, rfl⟩
      | _ => cases hn
    · rw [readUnitChild_source, textsOf_cons_element, textsOf_cons_element, if_pos rfl, if_neg (by simp),
        getLast?_cons_or]
      exact ⟨rfl, rfl⟩
    · rw [readUnitChild_target, textsOf_cons_element, textsOf_cons_element, if_pos rfl, if_neg (by simp),
        getLast?_cons_or]
      exact ⟨rfl, rfl⟩
    · rw [readUnitChild_foreign hn hforeign, textsOf_cons_foreign (.inl rfl) hforeign,
        textsOf_cons_foreign (.inr rfl) hforeign]
      exact ⟨rfl, rfl⟩

theorem countP_ofNode (ns : List Node) :
    ((Node.notTexts ns).map UnitChild.ofNode).countP UnitChild.isSource =
        (textsOf "source" ns).length ∧
      ((Node.notTexts ns).map UnitChild.ofNode).countP UnitChild.isTarget =
        (textsOf "target" ns).length := by
  induction ns with
  | nil => exact ⟨rfl, rfl⟩
  | cons n ns ih =>
    obtain ⟨hsource, htarget⟩ := ih
    rcases unitNode_cases n with hn | ⟨attributes, children, rfl⟩ | ⟨attributes, children, rfl⟩ |
      ⟨hn, hforeign⟩
    · cases n with
      | text s => exact ⟨hsource, htarget⟩
      | _ => cases hn
    · have hparts : (Node.notTexts (.element "source" attributes children :: ns)).map
          UnitChild.ofNode = .source :: (Node.notTexts ns).map UnitChild.ofNode := rfl
      rw [hparts, textsOf_cons_element, textsOf_cons_element, if_pos rfl, if_neg (by simp)]
      simp [List.countP_cons, UnitChild.isSource, UnitChild.isTarget, hsource, htarget]
    · have hparts : (Node.notTexts (.element "target" attributes children :: ns)).map
          UnitChild.ofNode = .target :: (Node.notTexts ns).map UnitChild.ofNode := rfl
      rw [hparts, textsOf_cons_element, textsOf_cons_element, if_pos rfl, if_neg (by simp)]
      simp [List.countP_cons, UnitChild.isSource, UnitChild.isTarget, hsource, htarget]
    · have hparts : (Node.notTexts (n :: ns)).map UnitChild.ofNode =
          .foreign n :: (Node.notTexts ns).map UnitChild.ofNode := by
        simp [Node.notTexts, hn, UnitChild.ofNode_foreign hforeign]
      rw [hparts, textsOf_cons_foreign (.inl rfl) hforeign,
        textsOf_cons_foreign (.inr rfl) hforeign]
      simp [UnitChild.isSource, UnitChild.isTarget, hsource, htarget]

/-! ### As they are written -/

theorem parts_readUnit (e : Element) :
    (readUnit e).parts = (Node.notTexts e.children).map UnitChild.ofNode ∨
      Node.notTexts e.children = [] ∧ (readUnit e).source = none ∧
        (readUnit e).parts = [.source] := by
  have hchildren : (readUnit e).children = (Node.notTexts e.children).map UnitChild.ofNode := by
    rw [readUnit, children_foldl_readUnitChild, List.nil_append]
  cases hempty : (readUnit e).children.isEmpty with
  | true =>
    have hnil : Node.notTexts e.children = [] := by simpa [hchildren] using hempty
    have htexts : textsOf "source" e.children = [] := by
      rw [← textsOf_notTexts, hnil]
      rfl
    have hsource : (readUnit e).source = none := by
      rw [readUnit, (texts_foldl_readUnitChild e.children _).1, htexts]
      rfl
    exact .inr ⟨hnil, hsource, TransUnit.parts_of_isEmpty (asRead_readUnit e) hempty⟩
  | false =>
    rw [TransUnit.parts_of_not_isEmpty hempty, hchildren]
    exact .inl rfl

theorem textsOf_map_partNode {u : TransUnit} (h : u.Sound) (tab level : Nat)
    {cs : List UnitChild} (hcs : ∀ n, .foreign n ∈ cs → .foreign n ∈ u.children) :
    textsOf "source" (cs.map (u.partNode tab level)) =
        List.replicate (cs.countP UnitChild.isSource) (u.source.getD "") ∧
      textsOf "target" (cs.map (u.partNode tab level)) =
        List.replicate (cs.countP UnitChild.isTarget) (u.target.getD "") := by
  induction cs with
  | nil => exact ⟨rfl, rfl⟩
  | cons c cs ih =>
    obtain ⟨hsource, htarget⟩ := ih fun n hn => hcs n (List.mem_cons_of_mem c hn)
    rw [List.map_cons]
    cases c with
    | source =>
      rw [TransUnit.partNode, textsOf_cons_element, textsOf_cons_element, if_pos rfl,
        if_neg (by simp), Markup.directText_inline, hsource, htarget, List.countP_cons,
        List.countP_cons]
      exact ⟨rfl, rfl⟩
    | target =>
      rw [TransUnit.partNode, textsOf_cons_element, textsOf_cons_element, if_pos rfl,
        if_neg (by simp), Markup.directText_inline, hsource, htarget, List.countP_cons,
        List.countP_cons]
      exact ⟨rfl, rfl⟩
    | foreign n =>
      have hforeign := TransUnit.isForeign_reread h (hcs n List.mem_cons_self) tab level
      rw [TransUnit.partNode, textsOf_cons_foreign (.inl rfl) hforeign,
        textsOf_cons_foreign (.inr rfl) hforeign, hsource, htarget]
      simp [UnitChild.isSource, UnitChild.isTarget]

/-- The block of a unit is read as an element with the texts of the unit's element. -/
theorem sameTexts_readUnit {e : Element} (htidy : e.toNode.Tidy) (hnamed : e.toNode.Named)
    (id : String) (tab level : Nat) :
    SameTexts e ⟨"trans-unit", (readUnit e).allAttributes id,
      Block.contents tab level (readUnit e).innerBlocks⟩ := by
  have h := sound_readUnit htidy hnamed
  have hnodes := TransUnit.map_node_innerBlocks h (asRead_readUnit e) tab (level + 1)
  obtain ⟨hsource, htarget⟩ := texts_foldl_readUnitChild e.children
    { attributes := e.attributesExcept ["id", "xml:space"] }
  rw [← readUnit, Option.or_none] at hsource htarget
  have hforeign : ∀ n, .foreign n ∈ (readUnit e).parts → .foreign n ∈ (readUnit e).children :=
    fun n => TransUnit.foreign_mem_parts
  obtain ⟨hsources, htargets⟩ := textsOf_map_partNode h tab (level + 1) hforeign
  have htexts (name : String) :
      textsOf name (Block.contents tab level (readUnit e).innerBlocks) =
        textsOf name ((readUnit e).parts.map ((readUnit e).partNode tab (level + 1))) := by
    rw [← textsOf_notTexts, Block.notTexts_contents, hnodes, textsOf_notTexts]
  -- a unit without children is written with a source that it did not have
  rcases parts_readUnit e with hparts | ⟨hnil, hnone, hparts⟩
  · obtain ⟨hcount, hcount'⟩ := countP_ofNode e.children
    refine ⟨.inl ?_, ?_, ?_⟩
    · rw [htexts, hsources, hparts, hcount, hsource, lastOfAll]
    · rw [htexts, htargets, hparts, hcount', htarget, lastOfAll]
    · intro n hn htext hother
      have hpart : .foreign n ∈ (readUnit e).parts := by
        rw [hparts, ← UnitChild.ofNode_foreign hother]
        exact List.mem_map_of_mem (List.mem_filter.2 ⟨hn, by simp [htext]⟩)
      have hmem : n.reread tab (level + 1) ∈
          Node.notTexts (Block.contents tab level (readUnit e).innerBlocks) := by
        rw [Block.notTexts_contents, hnodes]
        refine List.mem_filter.2 ⟨List.mem_map_of_mem hpart, ?_⟩
        simp [Node.isText_reread htext]
      exact ⟨_, List.mem_of_mem_filter hmem,
        sameForm_reread (h.solid n (hforeign n hpart)) tab (level + 1)⟩
  · have hnone' : (readUnit e).target = none := by
      rw [htarget, ← textsOf_notTexts, hnil]
      rfl
    refine ⟨.inr ⟨hnil, ?_⟩, ?_, ?_⟩
    · rw [htexts, hsources, hparts, hnone]
      rfl
    · rw [htexts, htargets, hparts, ← textsOf_notTexts "target" e.children, hnil]
      rfl
    · intro n hn htext
      have hmem : n ∈ Node.notTexts e.children := List.mem_filter.2 ⟨hn, by simp [htext]⟩
      rw [hnil] at hmem
      cases hmem

/-! ## What is left of a file -/

/-- Whether a unit or a group among nodes has an identifier. -/
def TakenIn (ns : List Node) (id : String) : Prop :=
  ∃ f : Element, f.toNode ∈ ns ∧ IsUnitElement f ∧ f.attribute? "id" = some id

/-- What is left of a plural group after the deletion of forms. -/
structure GroupKept (deleted : List String) (id : String) (e e' : Element) : Prop where
  forms : ∀ f : Element, f.toNode ∈ e.children → f.name = "trans-unit" →
    ∃ i, formIndex? id f = some i ∧
      (¬FormDeleted deleted id i → ∃ f' : Element, f'.toNode ∈ e'.children ∧
        f'.name = "trans-unit" ∧ f'.attribute? "id" = some (pluralFormId id i) ∧ SameTexts f f')
  others : ∀ n ∈ e.children, n.isText = false →
    (∀ f, n.element? = some f → f.name ≠ "trans-unit") → ∃ n' ∈ e'.children, n.SameForm n'

/-- Whether forms of a group are left, or none is deleted. -/
def GroupLeft (deleted : List String) (id : String) (e : Element) : Prop :=
  (∃ f : Element, f.toNode ∈ e.children ∧ f.name = "trans-unit" ∧
    ∃ i, formIndex? id f = some i ∧ ¬FormDeleted deleted id i) ∨
    ∀ i, ¬FormDeleted deleted id i

/-- What is left of a body after the deletion of units and forms. An identifier is that of the first
unit or group that has it, and nodes that are neither keep their form. -/
structure BodyKept (deleted : List String) (ns ns' : List Node) : Prop where
  units : ∀ (before : List Node) (e : Element) (after : List Node) (id : String),
    ns = before ++ e.toNode :: after → ¬TakenIn before id → e.name = "trans-unit" →
    e.attribute? "id" = some id → id ∉ deleted →
    ∃ e' : Element, e'.toNode ∈ ns' ∧ e'.name = "trans-unit" ∧ e'.attribute? "id" = some id ∧
      SameTexts e e'
  groups : ∀ (before : List Node) (e : Element) (after : List Node) (id : String),
    ns = before ++ e.toNode :: after → ¬TakenIn before id → e.name = "group" →
    e.attribute? "restype" = some pluralRestype → e.attribute? "id" = some id → id ∉ deleted →
    GroupLeft deleted id e →
    ∃ e' : Element, e'.toNode ∈ ns' ∧ e'.name = "group" ∧ e'.attribute? "id" = some id ∧
      GroupKept deleted id e e'
  others : ∀ (before : List Node) (n : Node) (after : List Node),
    ns = before ++ n :: after → n.isText = false →
    (∀ e id, n = Element.toNode e → IsUnitElement e → e.attribute? "id" = some id →
      TakenIn before id) → ∃ n' ∈ ns', n.SameForm n'

/-- What is left of a file after the deletion of units and forms. -/
structure FileKept (deleted : List String) (file file' : Element) : Prop where
  others : ∀ e ∈ file.elements, e.name ≠ "body" →
    ∃ e' ∈ file'.elements, e.toNode.SameForm e'.toNode
  body : BodyKept deleted (Document.bodyNodes file) (Document.bodyNodes file')

/-! ### Plural groups -/

theorem mem_of_readGroup {id : String} {e : Element} {g : PluralGroup}
    (h : readGroup id e = some g) :
    (∀ f : Element, f.toNode ∈ e.children → f.name = "trans-unit" →
        ∃ i, formIndex? id f = some i ∧ g.forms.get? i = some (readUnit f)) ∧
      ∀ n ∈ e.children, n.isText = false → (∀ f, n.element? = some f → f.name ≠ "trans-unit") →
        .foreign n ∈ g.children := by
  obtain ⟨ps, hps, rfl⟩ := readGroup_eq_some.1 h
  have hnodup := (stable_of_readParts (fun _ _ _ _ hv => (formVerdict_keyed hv).1) hps).nodup.1
  refine ⟨?_, ?_⟩
  · intro f hf hname
    obtain ⟨before, after, hsplit⟩ := List.append_of_mem hf
    rw [hsplit] at hps
    obtain ⟨qs, -, -, ⟨-, hforeign⟩ | ⟨e', i, u, heq, hverdict, hp⟩⟩ := readParts_at hps rfl
    · exact absurd hname (formVerdict_foreign.1 (hforeign f rfl)).2
    · cases Markup.toNode_inj.1 heq
      obtain ⟨-, rfl, -, hindex⟩ := formVerdict_keyed hverdict
      refine ⟨i, hindex, ?_⟩
      exact (SortedMap.get?_eq_some_iff (ascending_formsOf _)).2
        ((mem_formsOf hnodup).2 (Part.mem_entries.2 hp))
  · intro n hn htext hname
    obtain ⟨before, after, hsplit⟩ := List.append_of_mem hn
    rw [hsplit] at hps
    obtain ⟨qs, -, -, ⟨hp, -⟩ | ⟨f, i, u, rfl, hverdict, -⟩⟩ := readParts_at hps htext
    · exact List.mem_map_of_mem (f := GroupChild.ofPart) hp
    · exact absurd (formVerdict_keyed hverdict).2.2.1 (hname f rfl)

theorem groupKept {deleted : List String} {id : String} {e : Element} {g g' : PluralGroup}
    (h : readGroup id e = some g) (htidy : e.toNode.Tidy) (hnamed : e.toNode.Named)
    (hleaves : g.Leaves deleted id g') (hsound : g'.Sound id) (tab : Nat) (orderById : Bool) :
    GroupKept deleted id e ((CatalogUnit.plural g').element tab orderById id) := by
  obtain ⟨hforms, hforeign⟩ := mem_of_readGroup h
  refine ⟨?_, ?_⟩
  · intro f hf hname
    obtain ⟨i, hi, hu⟩ := hforms f hf hname
    refine ⟨i, hi, ?_⟩
    intro hleft
    have hu' := (SortedMap.get?_eq_some_iff hsound.ascending).1 (hleaves.forms i _ hu hleft)
    have hwritten : .keyed i (readUnit f) ∈ g'.written orderById :=
      (PluralGroup.mem_written_iff hsound.ascending).2 hu'
    have hnode : (PluralGroup.formBlock id i (readUnit f)).node tab 4 = Element.toNode
        ⟨"trans-unit", (readUnit f).allAttributes (pluralFormId id i),
          Block.contents tab 4 (readUnit f).innerBlocks⟩ := Block.node_nested ..
    refine ⟨_, ?_, rfl, ?_, sameTexts_readUnit (Markup.tidy_of_mem_children htidy _ hf)
      (Markup.named_of_mem_children hnamed _ hf) (pluralFormId id i) tab 4⟩
    · rw [← hnode]
      exact Part.node_mem_contents hwritten (by rw [hnode]; rfl)
    · exact (hsound.forms i _ hu').attributes.lookup_merge (TransUnit.mem_own _)
        (by simp [TransUnit.ownNames])
  · intro n hn htext hname
    have hn' := hleaves.foreign n (hforeign n hn htext hname)
    have hwritten : .foreign n ∈ g'.written orderById :=
      Part.foreign_mem_written.2 (PluralGroup.foreign_mem_parts.2 hn')
    exact ⟨_, Part.reread_mem_contents hwritten htext, sameForm_reread (hsound.solid n hn') tab 4⟩

/-! ### Bodies and files -/

/-- The identifiers of the parts of a body are those of its units and groups. -/
theorem mem_keys_iff_takenIn {ns : List Node} {ps : List (Part String CatalogUnit)}
    (h : readParts bodyVerdict [] ns = some ps) (id : String) :
    id ∈ Part.keys ps ↔ TakenIn ns id := by
  constructor
  · intro hid
    obtain ⟨u, hu⟩ := Part.mem_keys.1 hid
    rcases mem_of_readParts h hu with ⟨n, -, heq, -⟩ | ⟨e, k, v, seen, he, hverdict, heq⟩
    · cases heq
    · cases heq
      obtain ⟨-, hattribute, hunit, -⟩ := bodyVerdict_keyed hverdict
      exact ⟨e, he, hunit, hattribute⟩
  · rintro ⟨e, he, hunit, hattribute⟩
    obtain ⟨before, after, rfl⟩ := List.append_of_mem he
    obtain ⟨qs, -, hqs, ⟨-, hverdict⟩ | ⟨e', k, v, heq, hverdict, hp⟩⟩ := readParts_at h rfl
    · -- the element repeats an identifier from before it
      have hseen := bodyVerdict_eq_foreign_iff.1 (hverdict e rfl) id hattribute hunit
      obtain ⟨u, hu⟩ := Part.mem_keys.1 hseen
      exact Part.mem_keys.2 ⟨u, hqs _ hu⟩
    · cases Markup.toNode_inj.1 heq
      have hkey := (bodyVerdict_keyed hverdict).2.1
      rw [hattribute] at hkey
      cases hkey
      exact Part.mem_keys.2 ⟨v, hp⟩

section Body

variable {deleted : List String} {d d' : Document} {ns : List Node}
variable {ps : List (Part String CatalogUnit)}

/-- The first unit or group of an identifier is read as what it names. -/
theorem keyed_of_not_takenIn {before after : List Node} {e : Element} {id : String}
    (h : readParts bodyVerdict [] (before ++ e.toNode :: after) = some ps)
    (hfirst : ¬TakenIn before id) (hunit : IsUnitElement e) (hid : e.attribute? "id" = some id) :
    ∃ u, .keyed id u ∈ ps ∧ ((e.name = "trans-unit" ∧ u = .single (readUnit e)) ∨
      ∃ g, e.name = "group" ∧ readGroup id e = some g ∧ u = .plural g) := by
  obtain ⟨qs, hqs, -, ⟨-, hverdict⟩ | ⟨e', k, u, heq, hverdict, hp⟩⟩ := readParts_at h rfl
  · have hseen := bodyVerdict_eq_foreign_iff.1 (hverdict e rfl) id hid hunit
    exact absurd ((mem_keys_iff_takenIn hqs id).1 hseen) hfirst
  · cases Markup.toNode_inj.1 heq
    obtain ⟨-, hkey, -, hcases⟩ := bodyVerdict_keyed hverdict
    rw [hid] at hkey
    cases hkey
    exact ⟨u, hp, hcases⟩

theorem element_mem_contents {layout : Layout} {id : String} {u : CatalogUnit}
    (hu : d.units.get? id = some u) :
    (u.element layout.tabWidth layout.orderById id).toNode ∈
      Block.contents layout.tabWidth 2 (d.bodyBlocks layout) := by
  have hwritten : .keyed id u ∈ d.written layout :=
    Part.keyed_mem_written (Text.sortNatural_perm _) hu (Dict.mem_of_get? hu)
  rw [← CatalogUnit.node_block]
  refine Part.node_mem_contents hwritten ?_
  rw [CatalogUnit.node_block]
  rfl

theorem bodyKept (h : readParts bodyVerdict [] ns = some ps) (htidy : ∀ n ∈ ns, n.Tidy)
    (hnamed : ∀ n ∈ ns, n.Named) (hunits : d.units = ⟨Part.entries ps⟩)
    (hbody : d.body = ps.map BodyNode.ofPart) (hleaves : d.Leaves deleted d') (hsound : d'.Sound)
    (layout : Layout) :
    BodyKept deleted ns (Block.contents layout.tabWidth 2 (d'.bodyBlocks layout)) := by
  have hnodup := (stable_of_readParts (fun _ _ _ _ hv => (bodyVerdict_keyed hv).1) h).nodup.1
  -- the first element of an identifier is the one that was read into the catalog
  have hget {id : String} {u : CatalogUnit} (hp : .keyed id u ∈ ps) : d.units.get? id = some u := by
    have hdistinct : d.units.Distinct := by
      rw [Dict.Distinct, hunits]
      exact hnodup
    rw [Dict.get?_eq_some_iff hdistinct, hunits]
    exact Part.mem_entries.2 hp
  refine ⟨?_, ?_, ?_⟩
  · rintro before e after id rfl hfirst hname hid hleft
    obtain ⟨u, hp, ⟨-, rfl⟩ | ⟨g, hgroup, -⟩⟩ := keyed_of_not_takenIn h hfirst (.inl hname) hid
    · have hu := hleaves.single id _ (hget hp) hleft
      have he : e.toNode ∈ before ++ e.toNode :: after := by simp
      exact ⟨_, element_mem_contents hu, rfl,
        CatalogUnit.attribute?_element (hsound.units id _ (Dict.mem_of_get? hu)) _ _,
        sameTexts_readUnit (htidy _ he) (hnamed _ he) id layout.tabWidth 3⟩
    · exact absurd (hname.symm.trans hgroup) (by decide)
  · rintro before e after id rfl hfirst hname hrestype hid hleft hgroupLeft
    obtain ⟨u, hp, ⟨hunit, -⟩ | ⟨g, -, hg, rfl⟩⟩ :=
      keyed_of_not_takenIn h hfirst (.inr ⟨hname, hrestype⟩) hid
    · exact absurd (hname.symm.trans hunit) (by decide)
    · have houtlives : g.Outlives deleted id := by
        refine hgroupLeft.imp_left ?_
        rintro ⟨f, hf, hfname, i, hi, hformLeft⟩
        obtain ⟨j, hj, hu⟩ := (mem_of_readGroup hg).1 f hf hfname
        rw [hi] at hj
        cases hj
        exact ⟨i, SortedMap.contains_of_get? hu, hformLeft⟩
      obtain ⟨g', hg', hgroup⟩ := hleaves.plural id g (hget hp) hleft houtlives
      have hgsound := hsound.group hg'
      have he : e.toNode ∈ before ++ e.toNode :: after := by simp
      exact ⟨_, element_mem_contents hg', rfl,
        CatalogUnit.attribute?_element (u := .plural g') hgsound _ _,
        groupKept hg (htidy _ he) (hnamed _ he) hgroup hgsound _ _⟩
  · rintro before n after rfl htext htaken
    obtain ⟨qs, hqs, -, ⟨hp, -⟩ | ⟨e, id, u, rfl, hverdict, -⟩⟩ := readParts_at h htext
    · have hn : .foreign n ∈ d'.body := by
        refine hleaves.foreign n ?_
        rw [hbody]
        exact foreign_mem_map_ofPart.2 hp
      have hwritten : .foreign n ∈ d'.written layout :=
        Part.foreign_mem_written.2 (Document.foreign_mem_parts.2 hn)
      exact ⟨_, Part.reread_mem_contents hwritten htext,
        sameForm_reread (hsound.solid n hn) layout.tabWidth 3⟩
    · obtain ⟨hfresh, hid, hunit, -⟩ := bodyVerdict_keyed hverdict
      exact absurd ((mem_keys_iff_takenIn hqs id).2 (htaken e id rfl hunit hid)) hfresh

/-- A changed catalog keeps all of the file it was read from but what was deleted. -/
theorem fileKept {root file : Element} (hfile : root.elements.find? (·.name = "file") = some file)
    (hd : Document.ofRoot? root = some d) (htidy : root.toNode.Tidy) (hnamed : root.toNode.Named)
    (hleaves : d.Leaves deleted d') (hsound : d'.Sound) (layout : Layout) (header : Header) :
    FileKept deleted file (d'.fileElement layout header) := by
  rw [Document.ofRoot?_of_file hfile] at hd
  obtain ⟨ps, hps, rfl⟩ := Option.map_eq_some_iff.1 hd
  have hmem := Markup.toNode_mem_children (List.mem_of_find?_eq_some hfile)
  have hftidy := Markup.tidy_of_mem_children htidy _ hmem
  have hfnamed := Markup.named_of_mem_children hnamed _ hmem
  refine ⟨?_, ?_⟩
  · intro e he hname
    have hchild : e.toNode ∈ d'.fileChildren := by
      rw [hleaves.fileChildren]
      exact List.mem_map_of_mem (List.mem_filter.2 ⟨he, by simpa using hname⟩)
    obtain ⟨es, hmap, -, helements⟩ := Document.elements_fileElement hsound layout header
    have hreread : e.toNode.reread layout.tabWidth 2 ∈ es.map Element.toNode := by
      rw [hmap]
      exact List.mem_map_of_mem hchild
    obtain ⟨e', he', hnode⟩ := List.mem_map.1 hreread
    refine ⟨e', ?_, ?_⟩
    · rw [helements]
      exact List.mem_append_left _ he'
    · rw [hnode]
      exact sameForm_reread (hsound.fileChildren _ hchild).1 layout.tabWidth 2
  · rw [Document.bodyNodes_fileElement hsound]
    refine bodyKept hps (Document.tidy_bodyNodes hftidy) (Document.named_bodyNodes hfnamed) ?_ ?_
      hleaves hsound layout
    · simp [Document.addParts, Document.ofFile, Dict.empty]
    · simp [Document.addParts, Document.ofFile]

end Body

end TranslationAudit.Catalog
