import Mathlib.Data.List.Forall2
import TranslationAudit.Proofs.Markup.Sound

/-! # Trees written and read again

* `Node.Rewritten`: a tree up to the order of attributes, blank texts and blanks around texts.
* `Node.Named.rewritten`: trees of one block are the same in this sense.
* `Block.Sound.parse_lines`: the lines of an element alone are read as the node of its block.
* `parse_unlines_render`: an element that was read is written as a document, which is read as the
  same element and written the same way.
-/

namespace TranslationAudit.Markup

namespace Node

/-- A node and what it is read as once it is written: attributes are in natural order, children that
are blank texts do not count, and all other texts are the same after trimming. -/
inductive Rewritten : Node → Node → Prop where
  | text {s t : String} : Text.trimmed t = Text.trimmed s → Rewritten (.text s) (.text t)
  | comment (s : String) : Rewritten (.comment s) (.comment s)
  | element {name : String} {attributes : List (String × String)} {ms ns : List Node} :
      List.Forall₂ Rewritten (visible ms) (visible ns) →
        Rewritten (.element name attributes ms)
          (.element name (Text.sortNatural Prod.fst attributes) ns)

/-- Nodes whose elements have their attributes in natural order. -/
inductive Ordered : Node → Prop where
  | text (s : String) : Ordered (.text s)
  | comment (s : String) : Ordered (.comment s)
  | element {name : String} {attributes : List (String × String)} {children : List Node} :
      Text.sortNatural Prod.fst attributes = attributes → (∀ n ∈ children, Ordered n) →
        Ordered (.element name attributes children)

end Node

/-! ## Trees of one block -/

theorem Block.Canonical.ordered_node {b : Block} (h : b.Canonical) (tab : Nat) :
    ∀ level, (b.node tab level).Ordered := by
  induction h with
  | text _ => exact fun _ => .text _
  | comment s => exact fun _ => .comment s
  | empty hsorted => exact fun _ => .element hsorted (by simp)
  | @inline name attributes s hsorted _ =>
    intro level
    refine .element hsorted fun n hn => ?_
    split at hn
    · cases hn
    · rw [List.mem_singleton.1 hn]
      exact .text s
  | @nested name attributes parts hsorted _ _ _ ih =>
    intro level
    rw [Block.node_nested]
    refine .element hsorted fun n hn => ?_
    rcases Block.mem_contents hn with ⟨s, rfl⟩ | ⟨b, hb, rfl⟩
    · exact .text s
    · exact ih b hb (level + 1)

namespace Block

variable {name name' : String} {attributes attributes' : List (String × String)}
variable {parts parts' : List Block}

theorem ofParts_inj (h : ofParts name attributes parts = ofParts name' attributes' parts') :
    name = name' ∧ attributes = attributes' ∧ parts = parts' := by
  rw [ofParts.eq_def, ofParts.eq_def name'] at h
  split at h <;> split at h <;> simp_all

theorem ofParts_ne_comment (s : String) : ofParts name attributes parts ≠ .comment s := by
  rw [ofParts.eq_def]
  split <;> simp

end Block

namespace Node

/-- Nodes that are not blank have one block each. -/
theorem map_blocks_visible (ns : List Node) :
    (visible ns).map blocks = (blocksAll ns).map fun b => [b] := by
  induction ns with
  | nil => rfl
  | cons n ns ih =>
    rw [visible, List.filter_cons, ← visible, blocksAll]
    cases hn : n.isBlankText with
    | true => simpa [blocks_of_isBlankText hn] using ih
    | false =>
      obtain ⟨b, hb, -⟩ := blocks_of_visible hn
      simpa [hb] using ih

theorem forall₂_visible {ms ns : List Node} (h : blocksAll ms = blocksAll ns) :
    List.Forall₂ (fun m n => m.blocks = n.blocks) (visible ms) (visible ns) := by
  have hmap : (visible ms).map blocks = (visible ns).map blocks := by
    rw [map_blocks_visible, map_blocks_visible, h]
  rw [← List.forall₂_eq_eq_eq] at hmap
  rwa [List.forall₂_map_left_iff, List.forall₂_map_right_iff] at hmap

theorem isText_of_blocks {m n : Node} (hvisible : m.isBlankText = false)
    (h : m.blocks = n.blocks) : n.isText = m.isText := by
  obtain ⟨b, hb, -⟩ := blocks_of_visible hvisible
  rw [← isText_of_mem_blocks (n := m) (hb ▸ List.mem_singleton_self b),
    isText_of_mem_blocks (n := n) (h ▸ hb ▸ List.mem_singleton_self b)]

/-- Trees of one block are the same but for what writing changes. -/
theorem Named.rewritten {m n : Node} (hm : m.Named) (hn : n.Ordered)
    (hvisible : m.isBlankText = false) (h : m.blocks = n.blocks) : m.Rewritten n := by
  -- a node that is no blank text has one block, which tells its kind
  induction hm generalizing n with
  | text s =>
    have hkind := isText_of_blocks hvisible h
    rw [isBlankText] at hvisible
    rw [blocks, textBlocks, hvisible, if_neg (by simp)] at h
    cases n with
    | text t =>
      rw [blocks, textBlocks] at h
      split at h
      · cases h
      · rw [List.singleton_inj, Block.text.injEq] at h
        exact .text h.symm
    | _ => cases hkind
  | comment s =>
    have hkind := isText_of_blocks hvisible h
    cases n with
    | text t => cases hkind
    | comment c =>
      rw [blocks, blocks, List.singleton_inj, Block.comment.injEq] at h
      exact h ▸ .comment s
    | element name attributes children =>
      rw [blocks, blocks, List.singleton_inj] at h
      exact absurd h.symm (Block.ofParts_ne_comment s)
  | @element name attributes children _ _ _ ih =>
    have hkind := isText_of_blocks hvisible h
    cases n with
    | text t => cases hkind
    | comment c =>
      rw [blocks, blocks, List.singleton_inj] at h
      exact absurd h (Block.ofParts_ne_comment c)
    | element name' attributes' children' =>
      rw [blocks, blocks, List.singleton_inj] at h
      obtain ⟨rfl, hattributes, hparts⟩ := Block.ofParts_inj h
      obtain _ | _ | ⟨hsorted, hordered⟩ := hn
      rw [hsorted] at hattributes
      rw [← hattributes]
      refine .element ?_
      have hpairs := forall₂_visible hparts
      rw [List.forall₂_iff_zip] at hpairs ⊢
      refine ⟨hpairs.1, fun hmem => ?_⟩
      obtain ⟨hleft, hright⟩ := List.of_mem_zip hmem
      obtain ⟨hleft, hseen⟩ := List.mem_filter.1 hleft
      exact ih _ hleft (hordered _ (List.mem_of_mem_filter hright)) (by simpa using hseen)
        (hpairs.2 hmem)

end Node

/-! ## Elements as documents -/

theorem toList_unlines_concat (ls : List String) (l : String) :
    (Text.unlines (ls ++ [l])).toList = linesText ls ++ l.toList := by
  induction ls with
  | nil => simp [Text.unlines]
  | cons m ls ih =>
    have hne : ls ++ [l] ≠ [] := by simp
    rw [List.cons_append, Text.unlines, String.intercalate_cons_of_ne_nil hne, ← Text.unlines]
    simp [ih]

theorem readInto_indent_outside (tab level : Nat) (rest : List Char) :
    readInto {} ((indent tab level).toList ++ rest) = readInto {} rest := by
  by_cases hempty : (indent tab level).toList = []
  · rw [hempty, List.nil_append]
  · have hread := readInto_escaped hempty {} (fun _ => isAllBlank_indent tab level) rest
    rwa [escaped_indent] at hread

/-- A document may be indented. -/
theorem parse_of_indent {s : String} (tab level : Nat) (r : List Char) {e : Element}
    (hs : s.toList = (indent tab level).toList ++ '<' :: r)
    (h : readInto {} ('<' :: r) = some ⟨[], some e⟩) : parse s = .ok e := by
  have hmark : withoutMark s.toList = s.toList := by
    rw [hs, indent, String.toList_ofList]
    cases tab * level <;> rfl
  rw [parse_eq_ok_iff, hmark, hs]
  exact ⟨_, (readInto_indent_outside tab level _).trans h, rfl⟩

theorem readInto_empty_root {name : String} (hname : isName name = true)
    {attributes : List (String × String)} (h : AttributesNamed attributes) (rest : List Char) :
    readInto {} ('<' :: (tagText name attributes).toList ++ '/' :: '>' :: rest) =
      readInto ⟨[], some ⟨name, attributes, []⟩⟩ rest := by
  rw [readInto_of_cutPiece (cutPiece_empty hname h rest) (by simp; omega)]
  simp [Building.add, readTag_tagText hname h, Building.attach, Except.toOption]

/-- The lines of an element alone are read as its node. -/
theorem Block.Sound.parse_lines {name : String} {attributes : List (String × String)}
    {parts : List Block} (h : (Block.ofParts name attributes parts).Sound) (tab level : Nat) :
    ∃ e, parse (Text.unlines ((Block.ofParts name attributes parts).lines tab level)) = .ok e ∧
      e.toNode = (Block.ofParts name attributes parts).node tab level := by
  -- an element without parts, with a single text, and with parts on lines of their own
  revert h
  rw [Block.ofParts.eq_def]
  split <;> intro h
  · obtain - | - | ⟨hname, hattributes⟩ := h
    refine ⟨⟨name, attributes, []⟩, ?_, by rw [Block.node]; rfl⟩
    refine parse_of_indent tab level ((tagText name attributes).toList ++ '/' :: ['>']) ?_ ?_
    · rw [Block.lines, ← List.nil_append [_], toList_unlines_concat]
      simp
    · exact (readInto_empty_root hname hattributes []).trans (readInto_nil _)
  · next s =>
    obtain - | - | - | ⟨-, hname, hattributes⟩ := h
    refine ⟨⟨name, attributes, if s.isEmpty then [] else [.text s]⟩, ?_, by rw [Block.node]; rfl⟩
    refine parse_of_indent tab level ((tagText name attributes).toList ++
        '>' :: (escaped s.toList ++ ('<' :: '/' :: name.toList ++ ['>']))) ?_ ?_
    · rw [Block.lines, ← List.nil_append [_], toList_unlines_concat]
      simp [toList_escape]
    · rw [← List.cons_append, readInto_opening hname hattributes _ (fun _ => rfl), ← inside,
        readInto_content, inside, readInto_closing_root hname, readInto_nil]
  · obtain - | - | - | - | ⟨hname, hattributes, hparts⟩ := h
    refine ⟨⟨name, attributes, Block.contents tab level parts⟩, ?_, by rw [Block.node_nested]; rfl⟩
    refine parse_of_indent tab level ((tagText name attributes).toList ++
        '>' :: '\n' :: (linesText (Block.linesAll tab (level + 1) parts) ++
          ((indent tab level).toList ++ ('<' :: '/' :: name.toList ++ ['>'])))) ?_ ?_
    · rw [Block.lines, toList_unlines_concat]
      simp
    · rw [← List.cons_append, readInto_opening hname hattributes _ (fun _ => rfl), ← inside,
        readInto_newline, appendText_nil]
      obtain ⟨hends, hread⟩ := readInto_linesAll name attributes [] none
        (fun b hb => (hparts b hb).reads tab (level + 1)) [.text "\n"] ⟨[], "\n", rfl⟩
        ((indent tab level).toList ++ ('<' :: '/' :: name.toList ++ ['>']))
      rw [hread, readInto_indent _ _ _ _ hends, inside, readInto_closing_root hname,
        readInto_nil, ← Block.contents]

/-- An element that was read is written, at any level, as a document that is read as the same
element, but for the order of attributes and blanks around texts. It is written the same way. -/
theorem parse_unlines_render {t : String} {e : Element} (h : parse t = .ok e)
    (hnamed : e.toNode.Named) (tab level : Nat) :
    ∃ e', parse (Text.unlines (e.toNode.render tab level)) = .ok e' ∧
      e.toNode.Rewritten e'.toNode ∧
      e'.toNode.render tab level = e.toNode.render tab level := by
  have hblocks : e.toNode.blocks =
      [.ofParts e.name (Text.sortNatural Prod.fst e.attributes) (Node.blocksAll e.children)] := by
    rw [Element.toNode, Node.blocks]
  obtain ⟨hsound, hcanonical⟩ :=
    (parse_tidy h).block hnamed _ (hblocks ▸ List.mem_singleton_self _)
  obtain ⟨e', hparse, hnode⟩ := hsound.parse_lines tab level
  have hsame : e'.toNode.blocks = e.toNode.blocks := by
    rw [hnode, hblocks, hcanonical.blocks_node tab level]
  refine ⟨e', ?_, ?_, ?_⟩
  · rw [Node.render_eq, hblocks, Block.linesAll_singleton, hparse]
  · exact hnamed.rewritten (hnode ▸ hcanonical.ordered_node tab level) rfl hsame.symm
  · rw [Node.render_eq, Node.render_eq, hsame]

/-- An element with nodes of every kind, of which each gets a line. The character data and the
entity after it are one text. -/
theorem parse_unlines_render_mixed :
    ∃ e e', parse "<p a='&lt;'> x<![CDATA[ <]]>&amp;<!--c--> <q> y </q><r></r></p>" = .ok e ∧
      e.toNode.render 2 1 = ["  <p a=\"&lt;\">", "    x &lt;&amp;", "    <!--c-->",
        "    <q>y</q>", "    <r/>", "  </p>"] ∧
      parse (Text.unlines (e.toNode.render 2 1)) = .ok e' ∧ e.toNode.Rewritten e'.toNode ∧
      e'.toNode.render 2 1 = e.toNode.render 2 1 := by
  have hchecks :
      (parse "<p a='&lt;'> x<![CDATA[ <]]>&amp;<!--c--> <q> y </q><r></r></p>").toOption.map
        (fun e => (e.toNode.isNamed, e.toNode.render 2 1)) =
        some (true, ["  <p a=\"&lt;\">", "    x &lt;&amp;", "    <!--c-->", "    <q>y</q>",
          "    <r/>", "  </p>"]) := by
    decide +kernel
  obtain ⟨e, he, hchecks⟩ := Option.map_eq_some_iff.1 hchecks
  obtain ⟨hnamed, hlines⟩ := Prod.mk.inj hchecks
  have hparse := eq_ok_of_toOption he
  obtain ⟨e', hback⟩ := parse_unlines_render hparse ((Node.isNamed_iff _).1 hnamed) 2 1
  exact ⟨e, e', hparse, hlines, hback⟩

end TranslationAudit.Markup
