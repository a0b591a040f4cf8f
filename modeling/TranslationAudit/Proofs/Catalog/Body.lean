import TranslationAudit.Proofs.Catalog.Group

/-! # Catalogs read back

* `bodyVerdict`, `Document.ofRoot?_eq_some`: a body is read as parts of which the keys are
  identifiers.
* `Document.AsRead`: catalogs whose units are those of their body, as in those that were read.
* `Document.parse_sound`: every catalog that was read is such a catalog and can be written.
* `Document.NamesIn`: texts in which elements and attributes have names for names.
-/

namespace TranslationAudit.Catalog

open Markup (AttributesNamed Block Element Node declaration joinLines)

/-! ## Bodies as parts -/

/-- What an element of a body is taken for. -/
def bodyVerdict (seen : List String) (e : Element) : Verdict String CatalogUnit :=
  match e.attribute? "id" with
  | none => .foreign
  | some id =>
    if seen.contains id then .foreign
    else if e.name = "trans-unit" then .keyed id (.single (readUnit e))
    else if e.name = "group" ∧ e.attribute? "restype" = some pluralRestype then
      match readGroup id e with
      | none => .unsupported
      | some g => .keyed id (.plural g)
    else .foreign

/-- Elements of a body that are units or plural groups, if their identifier is new. -/
def IsUnitElement (e : Element) : Prop :=
  e.name = "trans-unit" ∨ (e.name = "group" ∧ e.attribute? "restype" = some pluralRestype)

/-- A part of a body as one of its nodes. -/
def BodyNode.ofPart : Part String CatalogUnit → BodyNode
  | .keyed id _ => .unit id
  | .foreign n => .foreign n

/-- Adds parts with new identifiers to a document. -/
def Document.addParts (d : Document) (ps : List (Part String CatalogUnit)) : Document :=
  { d with
    units := ⟨d.units.entries ++ Part.entries ps⟩
    body := d.body ++ ps.map BodyNode.ofPart }

theorem readBodyElement_eq (d : Document) (e : Element) :
    readBodyElement d e =
      match bodyVerdict d.units.keys e with
      | .keyed id u => .unit id u
      | .foreign => .foreign
      | .unsupported => .unsupported := by
  rw [readBodyElement, bodyVerdict]
  cases e.attribute? "id" with
  | none => rfl
  | some id =>
    simp only [Dict.contains_eq]
    cases d.units.keys.contains id with
    | true => rfl
    | false =>
      simp only [Bool.false_eq_true, if_false]
      split
      · rfl
      · split
        · cases readGroup id e <;> rfl
        · rfl

theorem bodyVerdict_keyed {seen : List String} {e : Element} {id : String} {u : CatalogUnit}
    (h : bodyVerdict seen e = .keyed id u) :
    id ∉ seen ∧ e.attribute? "id" = some id ∧ IsUnitElement e ∧
      ((e.name = "trans-unit" ∧ u = .single (readUnit e)) ∨
        ∃ g, e.name = "group" ∧ readGroup id e = some g ∧ u = .plural g) := by
  rw [bodyVerdict] at h
  split at h
  · cases h
  · next i hi =>
    split at h
    · cases h
    · next hseen =>
      have hfresh : i ∉ seen := by simpa using hseen
      split at h
      · next hname =>
        cases h
        exact ⟨hfresh, hi, .inl hname, .inl ⟨hname, rfl⟩⟩
      · split at h
        · next hgroup =>
          split at h
          · cases h
          · next g hg =>
            cases h
            exact ⟨hfresh, hi, .inr hgroup, .inr ⟨g, hgroup.1, hg, rfl⟩⟩
        · cases h

theorem readBody_eq (d : Document) (ns : List Node) :
    readBody d ns = (readParts bodyVerdict d.units.keys ns).map d.addParts := by
  induction ns generalizing d with
  | nil => simp [readBody, readParts, Document.addParts]
  | cons n ns ih =>
    have behind (m : Node) :
        readBody { d with body := d.body ++ [.foreign m] } ns =
          ((readParts bodyVerdict d.units.keys ns).map (.foreign m :: ·)).map d.addParts := by
      rw [ih { d with body := d.body ++ [.foreign m] }, Option.map_map]
      congr 1
      funext ps
      simp [Document.addParts, BodyNode.ofPart]
    cases n with
    | text s => exact ih d
    | comment s => exact behind (.comment s)
    | element name attributes children =>
      rw [readBody, readParts, readBodyElement_eq]
      cases hverdict : bodyVerdict d.units.keys ⟨name, attributes, children⟩ with
      | unsupported => rfl
      | foreign => exact behind _
      | keyed id u =>
        have hid : id ∉ d.units.keys := (bodyVerdict_keyed hverdict).1
        have hkeys : (d.units.insert id u).keys = d.units.keys ++ [id] := by
          rw [Dict.keys, Dict.entries_insert_new hid, List.map_append]
          rfl
        simp only
        rw [ih { d with units := d.units.insert id u, body := d.body ++ [.unit id] }, hkeys,
          Option.map_map]
        congr 1
        funext ps
        simp [Document.addParts, BodyNode.ofPart, Dict.entries_insert_new hid]

/-- An element is foreign in a body unless it is a unit with a new identifier. -/
theorem bodyVerdict_eq_foreign_iff {seen : List String} {e : Element} :
    bodyVerdict seen e = .foreign ↔
      ∀ id, e.attribute? "id" = some id → IsUnitElement e → id ∈ seen := by
  rw [bodyVerdict, IsUnitElement]
  cases e.attribute? "id" with
  | none => simp
  | some id =>
    simp only [Option.some.injEq, forall_eq']
    cases hseen : seen.contains id with
    | true => simpa using fun _ => hseen
    | false =>
      have hfresh : id ∉ seen := by simpa using hseen
      simp only [Bool.false_eq_true, if_false, hfresh, imp_false, not_or]
      by_cases hunit : e.name = "trans-unit"
      · simp [hunit]
      · by_cases hgroup : e.name = "group" ∧ e.attribute? "restype" = some pluralRestype
        · rw [if_neg hunit, if_pos hgroup]
          cases readGroup id e <;> simp [hgroup]
        · rw [if_neg hunit, if_neg hgroup]
          simp [hunit, hgroup]

theorem byHead_bodyVerdict : ByHead bodyVerdict := by
  intro seen e e' hname hattribute h
  rw [bodyVerdict_eq_foreign_iff] at h ⊢
  rw [IsUnitElement, hattribute "id", hattribute "restype", hname]
  exact h

/-! ## Files -/

namespace Document

/-- What is read of a file element beside its body. -/
def ofFile (file : Element) : Document where
  metadata := readMetadata file
  fileAttributes := file.attributesExcept metadataNames
  fileChildren := (file.elements.filter (·.name ≠ "body")).map Element.toNode

/-- The nodes in the body of a file element. -/
def bodyNodes (file : Element) : List Node :=
  ((file.elements.find? (·.name = "body")).map Element.children).getD []

theorem ofRoot?_of_file {root file : Element}
    (h : root.elements.find? (·.name = "file") = some file) :
    ofRoot? root = (readParts bodyVerdict [] (bodyNodes file)).map (ofFile file).addParts := by
  rw [ofRoot?, h]
  simp only
  rw [bodyNodes]
  cases file.elements.find? (·.name = "body") with
  | none =>
    simp only [Option.map_none, Option.getD_none, readParts, Option.map_some]
    simp [addParts, ofFile]
  | some body => exact readBody_eq (ofFile file) body.children

/-- A catalog is empty, or what is read of a file element with the parts of its body. -/
theorem ofRoot?_eq_some {root : Element} {d : Document} (h : ofRoot? root = some d) :
    d = {} ∨ ∃ file ps, file ∈ root.elements ∧
      readParts bodyVerdict [] (bodyNodes file) = some ps ∧ d = (ofFile file).addParts ps := by
  cases hfile : root.elements.find? (·.name = "file") with
  | none =>
    rw [ofRoot?, hfile] at h
    cases h
    exact .inl rfl
  | some file =>
    rw [ofRoot?_of_file hfile, Option.map_eq_some_iff] at h
    obtain ⟨ps, hps, rfl⟩ := h
    exact .inr ⟨file, ps, List.mem_of_find?_eq_some hfile, hps, rfl⟩

end Document

/-! ## What reading makes sure of -/

/-- What an identifier names, as it is read from a file. -/
def CatalogUnit.AsRead : CatalogUnit → Prop
  | .single u => u.AsRead
  | .plural g => g.AsRead

/-- Catalogs whose units are those of their body, each identifier once. -/
def Document.AsRead (d : Document) : Prop :=
  ∃ ps, Stable bodyVerdict [] ps ∧ d.units = ⟨Part.entries ps⟩ ∧
    d.body = ps.map BodyNode.ofPart ∧ ∀ id u, .keyed id u ∈ ps → u.AsRead

theorem foreign_mem_map_ofPart {ps : List (Part String CatalogUnit)} {n : Node} :
    .foreign n ∈ ps.map BodyNode.ofPart ↔ .foreign n ∈ ps := by
  rw [List.mem_map]
  constructor
  · rintro ⟨p, hp, hn⟩
    cases p with
    | keyed id u => cases hn
    | foreign m =>
      cases hn
      exact hp
  · exact fun hp => ⟨.foreign n, hp, rfl⟩

theorem sound_of_readParts {ns : List Node} {ps : List (Part String CatalogUnit)}
    (h : readParts bodyVerdict [] ns = some ps) (htidy : ∀ n ∈ ns, n.Tidy)
    (hnamed : ∀ n ∈ ns, n.Named) :
    (∀ id u, .keyed id u ∈ ps → u.Sound id ∧ u.AsRead) ∧ ∀ n, .foreign n ∈ ps → n.Solid := by
  refine ⟨?_, ?_⟩
  · intro id u hp
    rcases mem_of_readParts h hp with ⟨n, -, hn, -⟩ | ⟨e, j, v, seen, he, hverdict, heq⟩
    · cases hn
    · cases heq
      have hetidy := htidy _ he
      have henamed := hnamed _ he
      obtain ⟨-, -, -, ⟨-, rfl⟩ | ⟨g, -, hg, rfl⟩⟩ := bodyVerdict_keyed hverdict
      · exact ⟨sound_readUnit hetidy henamed, asRead_readUnit e⟩
      · exact asRead_readGroup hg hetidy henamed
  · intro n hp
    rcases mem_of_readParts h hp with ⟨m, hm, heq, htext⟩ | ⟨e, j, v, seen, -, -, heq⟩
    · cases heq
      exact ⟨htext, htidy n hm, hnamed n hm⟩
    · cases heq

namespace Document

theorem tidy_bodyNodes {file : Element} (h : file.toNode.Tidy) :
    ∀ n ∈ bodyNodes file, n.Tidy := by
  intro n hn
  rw [bodyNodes] at hn
  cases hbody : file.elements.find? (·.name = "body") with
  | none =>
    rw [hbody] at hn
    cases hn
  | some body =>
    rw [hbody] at hn
    have hmem := Markup.toNode_mem_children (List.mem_of_find?_eq_some hbody)
    exact Markup.tidy_of_mem_children (Markup.tidy_of_mem_children h _ hmem) n hn

theorem named_bodyNodes {file : Element} (h : file.toNode.Named) :
    ∀ n ∈ bodyNodes file, n.Named := by
  intro n hn
  rw [bodyNodes] at hn
  cases hbody : file.elements.find? (·.name = "body") with
  | none =>
    rw [hbody] at hn
    cases hn
  | some body =>
    rw [hbody] at hn
    have hmem := Markup.toNode_mem_children (List.mem_of_find?_eq_some hbody)
    exact Markup.named_of_mem_children (Markup.named_of_mem_children h _ hmem) n hn

theorem ofRoot?_sound {root : Element} {d : Document} (h : ofRoot? root = some d)
    (htidy : root.toNode.Tidy) (hnamed : root.toNode.Named) : d.Sound ∧ d.AsRead := by
  rcases ofRoot?_eq_some h with rfl | ⟨file, ps, hfile, hps, rfl⟩
  · exact ⟨⟨.nil, by simp, by simp, by simp [Dict.empty]⟩, [], trivial, rfl, rfl, by simp⟩
  · have hmem := Markup.toNode_mem_children hfile
    have hftidy := Markup.tidy_of_mem_children htidy _ hmem
    have hfnamed := Markup.named_of_mem_children hnamed _ hmem
    obtain ⟨hkeyed, hforeign⟩ := sound_of_readParts hps (tidy_bodyNodes hftidy)
      (named_bodyNodes hfnamed)
    refine ⟨⟨.of_except (Markup.attributesNamed_of_tidy hftidy hfnamed), ?_, ?_, ?_⟩,
      ps, stable_of_readParts (fun _ _ _ _ hv => (bodyVerdict_keyed hv).1) hps, ?_, ?_,
      fun id u hp => (hkeyed id u hp).2⟩
    · intro n hn
      obtain ⟨e, he, rfl⟩ := List.mem_map.1 hn
      obtain ⟨he, hname⟩ := List.mem_filter.1 he
      have hchild := Markup.toNode_mem_children he
      exact ⟨⟨rfl, Markup.tidy_of_mem_children hftidy _ hchild,
        Markup.named_of_mem_children hfnamed _ hchild⟩, e, rfl, by simpa using hname⟩
    · intro n hn
      exact hforeign n (foreign_mem_map_ofPart.1 (by simpa [addParts, ofFile] using hn))
    · intro id u hu
      exact (hkeyed id u (Part.mem_entries.1 (by simpa [addParts, ofFile, Dict.empty] using hu))).1
    · simp [addParts, ofFile, Dict.empty]
    · simp [addParts, ofFile]

/-- Texts in which elements and attributes have names for names. -/
def NamesIn (text : String) : Prop := ∀ root, Markup.parse text = .ok root → root.toNode.Named

instance (text : String) : Decidable (NamesIn text) :=
  match h : Markup.parse text with
  | .error _ => .isTrue fun root hroot => by rw [h] at hroot; cases hroot
  | .ok root =>
    decidable_of_iff root.toNode.Named
      ⟨fun hnamed other hother => by rw [h] at hother; cases hother; exact hnamed,
        fun hnames => hnames root h⟩

theorem parse_eq_ok {path text : String} {d : Document} (h : parse path text = .ok d) :
    ∃ root, Markup.parse text = .ok root ∧ ofRoot? root = some d := by
  rw [parse] at h
  split at h
  · cases h
  · split at h
    · cases h
    · next root hroot =>
      split at h
      · cases h
      · next d' hd =>
        cases h
        exact ⟨root, hroot, hd⟩

theorem parse_of_root {text : String} {root : Element} {d : Document}
    (hblank : Text.isAllBlank text = false) (hroot : Markup.parse text = .ok root)
    (hd : ofRoot? root = some d) (path : String) : parse path text = .ok d := by
  rw [parse, hblank, hroot, if_neg (by simp)]
  simp only [hd]

/-- Whether a text is that of a catalog in which elements and attributes have names for names. -/
def isReadable (text : String) : Bool :=
  !Text.isAllBlank text && (Markup.parse text).toOption.any fun root =>
    decide root.toNode.Named && (ofRoot? root).isSome

theorem exists_parse (path : String) {text : String} (h : isReadable text = true) :
    ∃ d, parse path text = .ok d ∧ NamesIn text := by
  rw [isReadable, Bool.and_eq_true, Bool.not_eq_true'] at h
  obtain ⟨hblank, h⟩ := h
  obtain ⟨root, hroot, h⟩ := (Option.any_eq_true _ _).1 h
  obtain ⟨hnamed, hsome⟩ := (Bool.and_eq_true _ _).mp h
  obtain ⟨d, hd⟩ := Option.isSome_iff_exists.1 hsome
  have hroot := eq_ok_of_toOption hroot
  refine ⟨d, parse_of_root hblank hroot hd path, ?_⟩
  intro other hother
  rw [hroot] at hother
  cases hother
  exact of_decide_eq_true hnamed

/-- Every catalog that was read can be written, and its units are those of its body. -/
theorem parse_sound {path text : String} {d : Document} (h : parse path text = .ok d)
    (hnamed : NamesIn text) : d.Sound ∧ d.AsRead := by
  obtain ⟨root, hroot, hd⟩ := parse_eq_ok h
  exact ofRoot?_sound hd (Markup.parse_tidy hroot) (hnamed root hroot)

end Document

/-! ## Writing and reading -/

/-- The metadata that a header is read as. -/
def Header.metadata (h : Header) : Metadata where
  productName := some h.productName
  sourceLanguage := some h.sourceLanguage
  targetLanguage := h.target?
  extractedFrom := some h.extractedFrom
  datatype := some h.datatype

namespace Document

variable {d : Document} (h : d.Sound) (layout : Layout) (header : Header)

/-- The element that the file block of a catalog is read as. -/
def fileElement (layout : Layout) (d : Document) (header : Header) : Element :=
  ⟨"file", mergeAttributes header.attributes d.fileAttributes,
    Block.contents layout.tabWidth 1
      (Node.blocksAll d.fileChildren ++ [.nested "body" [] (d.bodyBlocks layout)])⟩

/-- What stands for a catalog without its body after writing and reading. -/
def rereadHead (layout : Layout) (d : Document) (header : Header) : Document where
  metadata := header.metadata
  fileAttributes := d.fileAttributes
  fileChildren := d.fileChildren.map (Node.reread layout.tabWidth 2)

theorem elements_root : (d.root layout header).elements = [d.fileElement layout header] := by
  rw [root, Markup.elements_contents, List.map_singleton, fileBlock, Block.node_nested]
  rfl

include h

theorem attribute?_fileElement {name : String} (hname : name ∈ metadataNames) :
    (d.fileElement layout header).attribute? name = header.attributes.lookup name :=
  h.fileAttributes.lookup_merge header.mem_attributes hname

theorem readMetadata_fileElement :
    readMetadata (d.fileElement layout header) = header.metadata := by
  have hlookup {name : String} (hname : name ∈ metadataNames) :=
    attribute?_fileElement h layout header hname
  rw [readMetadata, hlookup (by decide), hlookup (by decide), hlookup (by decide),
    hlookup (by decide), hlookup (by decide), Header.attributes, Header.metadata]
  cases header.target? <;> rfl

theorem exists_element_reread {n : Node} (hn : n ∈ d.fileChildren) (tab level : Nat) :
    ∃ e : Element, n.reread tab level = e.toNode ∧ e.name ≠ "body" := by
  obtain ⟨-, e, rfl, hname⟩ := h.fileChildren n hn
  obtain ⟨children, hread⟩ := Node.reread_element tab level e.name e.attributes e.children
  exact ⟨⟨e.name, Text.sortNatural Prod.fst e.attributes, children⟩, hread, hname⟩

theorem elements_fileElement :
    ∃ es : List Element, es.map Element.toNode =
        d.fileChildren.map (Node.reread layout.tabWidth 2) ∧
      (∀ e ∈ es, e.name ≠ "body") ∧
      (d.fileElement layout header).elements =
        es ++ [⟨"body", [], Block.contents layout.tabWidth 2 (d.bodyBlocks layout)⟩] := by
  have hnodes : ∀ n ∈ d.fileChildren, n.isText = false :=
    fun n hn => (h.fileChildren n hn).1.notText
  have hchildren : ∀ ns : List Node, (∀ n ∈ ns, n ∈ d.fileChildren) →
      ∃ es : List Element, es.map Element.toNode = ns.map (Node.reread layout.tabWidth 2) ∧
        (∀ e ∈ es, e.name ≠ "body") ∧
        (ns.map (Node.reread layout.tabWidth 2)).filterMap Node.element? = es := by
    intro ns hns
    induction ns with
    | nil => exact ⟨[], rfl, by simp, rfl⟩
    | cons n ns ih =>
      obtain ⟨es, hmap, hnames, hes⟩ := ih fun m hm => hns m (List.mem_cons_of_mem n hm)
      obtain ⟨e, he, hname⟩ := exists_element_reread h (hns n List.mem_cons_self)
        layout.tabWidth 2
      refine ⟨e :: es, ?_, ?_, ?_⟩
      · rw [List.map_cons, List.map_cons, hmap, he]
      · intro f hf
        rcases List.mem_cons.1 hf with rfl | hf
        · exact hname
        · exact hnames f hf
      · rw [List.map_cons, he, List.filterMap_cons, hes]
        rfl
  obtain ⟨es, hmap, hnames, hes⟩ := hchildren d.fileChildren fun n hn => hn
  refine ⟨es, hmap, hnames, ?_⟩
  rw [fileElement, Markup.elements_contents, List.map_append,
    Markup.map_node_blocksAll hnodes, List.filterMap_append, hes, List.map_singleton,
    Block.node_nested]
  rfl

theorem bodyNodes_fileElement :
    bodyNodes (d.fileElement layout header) =
      Block.contents layout.tabWidth 2 (d.bodyBlocks layout) := by
  obtain ⟨es, -, hnames, helements⟩ := elements_fileElement h layout header
  have hnone : es.find? (·.name = "body") = none := by
    rw [List.find?_eq_none]
    intro e he
    simpa using hnames e he
  rw [bodyNodes, helements, List.find?_append, hnone]
  rfl

/-- The text of a catalog is read as what stands for its head, with the parts of its body. -/
theorem ofRoot?_root :
    ofRoot? (d.root layout header) =
      (readParts bodyVerdict [] ((d.bodyBlocks layout).map
        (Block.node layout.tabWidth 3))).map (d.rereadHead layout header).addParts := by
  obtain ⟨es, hmap, hnames, helements⟩ := elements_fileElement h layout header
  have hfile : (d.root layout header).elements.find? (·.name = "file") =
      some (d.fileElement layout header) := by
    rw [elements_root]
    rfl
  have hothers : (es.filter fun e => decide (e.name ≠ "body")) = es := by
    rw [List.filter_eq_self]
    intro e he
    simpa using hnames e he
  have hhead : ofFile (d.fileElement layout header) = d.rereadHead layout header := by
    have hattributes : (d.fileElement layout header).attributesExcept metadataNames =
        d.fileAttributes := h.fileAttributes.except_merge header.mem_attributes "file" _
    rw [ofFile, readMetadata_fileElement h, hattributes, helements, List.filter_append, hothers,
      List.map_append, hmap]
    simp [rereadHead]
  rw [ofRoot?_of_file hfile, bodyNodes_fileElement h, hhead, ← readParts_notTexts,
    Block.notTexts_contents, readParts_notTexts]

omit h in
theorem isAllBlank_render : Text.isAllBlank (render layout d header) = false := by
  rw [render_eq, Text.isAllBlank, Markup.toList_joinLines, Markup.linesText_cons,
    Text.allBlank_append]
  rfl

theorem namesIn_render : NamesIn (render layout d header) := by
  intro root hroot
  rw [h.parse_render] at hroot
  cases hroot
  have hnamed := (h.block layout header).named_node layout.tabWidth 0
  rw [block, Block.node_nested] at hnamed
  exact hnamed

/-- The text of a catalog is read again, unless one of the parts of its body is not supported. -/
theorem parse_render_eq (path : String) :
    parse path (render layout d header) =
      match readParts bodyVerdict [] ((d.bodyBlocks layout).map
        (Block.node layout.tabWidth 3)) with
      | none => .error (.unsupportedStructure path)
      | some ps => .ok ((d.rereadHead layout header).addParts ps) := by
  rw [parse, isAllBlank_render, h.parse_render, if_neg (by simp)]
  simp only [ofRoot?_root h]
  cases readParts bodyVerdict [] ((d.bodyBlocks layout).map (Block.node layout.tabWidth 3)) <;> rfl

end Document

end TranslationAudit.Catalog
