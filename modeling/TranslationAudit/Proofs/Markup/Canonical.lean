import Mathlib.Data.List.Chain
import TranslationAudit.Proofs.Markup.Block
import TranslationAudit.Proofs.Text.Blank
import TranslationAudit.Proofs.Text.NaturalOrder

/-! # The canonical form of a node

A writer makes at most one block of a node. The lines of this block are read as another node, which
has the same block again.

* `Node.blocks`: the block of a node; `Node.render_eq`: its lines are those that are written.
* `Block.Canonical`: the blocks that come from nodes.
* `Block.Canonical.blocks_node`: a canonical block is the block of the node it is read as.
* `Block.notTexts_contents`: apart from texts, the blocks of an element are read as their nodes.
-/

namespace TranslationAudit.Markup

/-! ## Blocks of nodes -/

/-- An element with given parts. -/
def Block.ofParts (name : String) (attributes : List (String × String)) : List Block → Block
  | [] => .empty name attributes
  | [.text s] => .inline name attributes s
  | parts => .nested name attributes parts

/-- The block of a text. -/
def textBlocks (s : String) : List Block :=
  if Text.isAllBlank s then [] else [.text (Text.trimmed s)]

namespace Node

mutual

/-- The block of a node, if it leaves anything. -/
def blocks : Node → List Block
  | .text s => textBlocks s
  | .comment s => [.comment s]
  | .element name attributes children =>
    [.ofParts name (Text.sortNatural Prod.fst attributes) (blocksAll children)]

/-- The blocks of several nodes. -/
def blocksAll : List Node → List Block
  | [] => []
  | n :: rest => n.blocks ++ blocksAll rest

end

theorem blocksAll_eq_flatMap (ns : List Node) : blocksAll ns = ns.flatMap blocks := by
  induction ns with
  | nil => rfl
  | cons n ns ih => rw [blocksAll, ih, List.flatMap_cons]

@[simp] theorem blocksAll_append (ns ms : List Node) :
    blocksAll (ns ++ ms) = blocksAll ns ++ blocksAll ms := by
  rw [blocksAll_eq_flatMap, blocksAll_eq_flatMap, blocksAll_eq_flatMap, List.flatMap_append]

@[simp] theorem blocksAll_singleton (n : Node) : blocksAll [n] = n.blocks := by
  rw [blocksAll, blocksAll, List.append_nil]

theorem blocks_of_isBlankText {n : Node} (h : n.isBlankText = true) : n.blocks = [] := by
  cases n with
  | text s =>
    rw [isBlankText] at h
    rw [blocks, textBlocks, if_pos h]
  | _ => simp [isBlankText] at h

theorem blocksAll_visible (ns : List Node) : blocksAll (visible ns) = blocksAll ns := by
  induction ns with
  | nil => rfl
  | cons n ns ih =>
    rw [visible, List.filter_cons, ← visible, blocksAll]
    cases h : n.isBlankText with
    | true => simpa [blocks_of_isBlankText h] using ih
    | false => simpa [blocksAll] using ih

theorem blocks_of_visible {n : Node} (h : n.isBlankText = false) :
    ∃ b, n.blocks = [b] ∧ ∀ s, b = .text s ↔ ∃ t, n = .text t ∧ s = Text.trimmed t := by
  cases n with
  | text t =>
    rw [isBlankText] at h
    refine ⟨.text (Text.trimmed t), by rw [blocks, textBlocks, h]; rfl, ?_⟩
    intro s
    simp [eq_comm]
  | comment c => exact ⟨.comment c, by rw [blocks], by simp⟩
  | element name attributes children =>
    refine ⟨_, by rw [blocks], ?_⟩
    intro s
    rw [Block.ofParts.eq_def]
    split <;> simp

/-! ## The written form -/

theorem render_element (tab level : Nat) (name : String) (attributes : List (String × String))
    (children : List Node)
    (h : renderAll tab (level + 1) children =
      Block.linesAll tab (level + 1) (blocksAll children)) :
    render tab level (.element name attributes children) =
      (Block.ofParts name (Text.sortNatural Prod.fst attributes) (blocksAll children)).lines
        tab level := by
  have seen (n : Node) (hn : n ∈ visible children) : n.isBlankText = false := by
    simpa using (List.mem_filter.1 hn).2
  have hvisible := blocksAll_visible children
  rw [render, h]
  split
  · next hempty =>
    rw [hempty] at hvisible
    rw [← hvisible, blocksAll, Block.ofParts, Block.lines]
  · next s hone =>
    have hs : Text.isAllBlank s = false := seen (.text s) (by simp [hone])
    rw [hone, blocksAll_singleton, blocks, textBlocks, hs] at hvisible
    rw [← hvisible, if_neg (by simp), Block.ofParts, Block.lines]
  · next hempty hone =>
    have hparts : Block.ofParts name (Text.sortNatural Prod.fst attributes) (blocksAll children) =
        .nested name (Text.sortNatural Prod.fst attributes) (blocksAll children) := by
      rw [← hvisible]
      cases hv : visible children with
      | nil => exact absurd hv hempty
      | cons n others =>
        obtain ⟨b, hb, htext⟩ := blocks_of_visible (seen n (by simp [hv]))
        cases others with
        | nil =>
          rw [blocksAll_singleton, hb]
          cases b with
          | text s =>
            obtain ⟨t, rfl, -⟩ := (htext s).1 rfl
            exact absurd hv (hone t)
          | _ => rfl
        | cons m rest =>
          obtain ⟨c, hc, -⟩ := blocks_of_visible (seen m (by simp [hv]))
          rw [blocksAll, blocksAll, hb, hc]
          cases b <;> rfl
    rw [hparts, Block.lines]

mutual

theorem render_eq (tab level : Nat) (n : Node) :
    n.render tab level = Block.linesAll tab level n.blocks := by
  cases n with
  | text s =>
    rw [render, blocks, textBlocks]
    split
    · rfl
    · rw [Block.linesAll_singleton, Block.lines]
  | comment s => rw [render, blocks, Block.linesAll_singleton, Block.lines]
  | element name attributes children =>
    rw [blocks, Block.linesAll_singleton]
    exact render_element tab level name attributes children (renderAll_eq tab (level + 1) children)

theorem renderAll_eq (tab level : Nat) (ns : List Node) :
    renderAll tab level ns = Block.linesAll tab level (blocksAll ns) := by
  cases ns with
  | nil => rfl
  | cons n ns =>
    rw [renderAll, blocksAll, Block.linesAll_append, render_eq tab level n,
      renderAll_eq tab level ns]

end

end Node

/-! ## Blanks of the layout -/

theorem isAllBlank_indent (tab level : Nat) : Text.isAllBlank (indent tab level) = true := by
  have hall : ∀ c ∈ List.replicate (tab * level) ' ', Text.isBlank c = true := by
    intro c hc
    rw [(List.mem_replicate.1 hc).2]
    decide
  rw [Text.isAllBlank, Text.allBlank, indent, String.toList_ofList, List.all_eq_true]
  exact hall

theorem isAllBlank_append {s t : String} (hs : Text.isAllBlank s = true)
    (ht : Text.isAllBlank t = true) : Text.isAllBlank (s ++ t) = true := by
  rw [Text.isAllBlank] at *
  rw [String.toList_append, Text.allBlank_append, hs, ht, Bool.and_true]

theorem textBlocks_of_isAllBlank {s : String} (h : Text.isAllBlank s = true) :
    textBlocks s = [] := by
  rw [textBlocks, if_pos h]

theorem textBlocks_congr {s t : String} (hblank : Text.isAllBlank s = Text.isAllBlank t)
    (htrimmed : Text.trimmed s = Text.trimmed t) : textBlocks s = textBlocks t := by
  rw [textBlocks, textBlocks, hblank, htrimmed]

theorem textBlocks_blank_append {u : String} (h : Text.isAllBlank u = true) (s : String) :
    textBlocks (u ++ s) = textBlocks s := by
  rw [Text.isAllBlank] at h
  apply textBlocks_congr
  · rw [Text.isAllBlank, String.toList_append, Text.allBlank_append, h, Bool.true_and,
      Text.isAllBlank]
  · rw [Text.trimmed, String.toList_append, Text.trim_blank_append h, Text.trimmed]

theorem textBlocks_append_blank {u : String} (h : Text.isAllBlank u = true) (s : String) :
    textBlocks (s ++ u) = textBlocks s := by
  rw [Text.isAllBlank] at h
  apply textBlocks_congr
  · rw [Text.isAllBlank, String.toList_append, Text.allBlank_append, h, Bool.and_true,
      Text.isAllBlank]
  · rw [Text.trimmed, String.toList_append, Text.trim_append_blank h, Text.trimmed]

theorem textBlocks_trimmed (s : String) : textBlocks (Text.trimmed s) = textBlocks s := by
  apply textBlocks_congr
  · rw [Text.isAllBlank, Text.trimmed, String.toList_ofList, Text.allBlank_trim, Text.isAllBlank]
  · rw [Text.trimmed, Text.trimmed, String.toList_ofList, Text.trim_trim]

/-! ## Canonical blocks -/

namespace Block

def isText : Block → Bool
  | .text _ => true
  | _ => false

/-- Blocks that are not two texts. -/
def Apart (b c : Block) : Prop := b.isText = false ∨ c.isText = false

/-- Blocks that come from nodes: texts are trimmed and stand apart from each other, attributes are
in order, and an element has lines for its parts only if it must. -/
inductive Canonical : Block → Prop where
  | text {s : String} : textBlocks s = [.text s] → Canonical (.text s)
  | comment (s : String) : Canonical (.comment s)
  | empty {name : String} {attributes : List (String × String)} :
      Text.sortNatural Prod.fst attributes = attributes → Canonical (.empty name attributes)
  | inline {name : String} {attributes : List (String × String)} {s : String} :
      Text.sortNatural Prod.fst attributes = attributes → textBlocks s = [.text s] →
        Canonical (.inline name attributes s)
  | nested {name : String} {attributes : List (String × String)} {parts : List Block} :
      Text.sortNatural Prod.fst attributes = attributes → (∀ b ∈ parts, Canonical b) →
        parts.IsChain Apart →
        ofParts name attributes parts = .nested name attributes parts →
        Canonical (.nested name attributes parts)

/-- What is no text closes the text before it, and a line feed is left behind it. -/
theorem fill_of_not_text (tab level : Nat) {b : Block} (hb : b.isText = false) (front : List Node)
    (w : String) (parts : List Block) :
    fill tab level (front ++ [.text w]) (b :: parts) =
      fill tab level ((front ++ [.text (w ++ indent tab level), b.node tab level]) ++ [.text "\n"])
        parts := by
  have hjoin (s : String) : join (front ++ [.text s]) (b.node tab level) =
      front ++ [.text s, b.node tab level] := by
    cases b with
    | text s => cases hb
    | _ => simp [node, join]
  have hlast (ns : List Node) : appendText (ns ++ [b.node tab level]) "\n" =
      ns ++ [b.node tab level] ++ [.text "\n"] := by
    cases b with
    | text s => cases hb
    | _ => simp [node, appendText]
  rw [fill, appendText_text, hjoin, List.append_cons, hlast]

/-- A text joins the text before it. -/
theorem fill_text (tab level : Nat) (s : String) (front : List Node) (w : String)
    (parts : List Block) :
    fill tab level (front ++ [.text w]) (.text s :: parts) =
      fill tab level (front ++ [.text (w ++ indent tab level ++ s ++ "\n")]) parts := by
  rw [fill, node, join, appendText_text, appendText_text, appendText_text]

theorem Apart.not_text {b c : Block} (h : Apart b c) (hb : b.isText = true) : c.isText = false := by
  rcases h with h | h
  · rw [hb] at h
    cases h
  · exact h

/-- The blocks of an element are the blocks of what their lines are read as, whatever was read
before them. A text before them joins a text only if it is blank. -/
theorem blocksAll_fill (tab level : Nat) {parts : List Block}
    (h : ∀ b ∈ parts, b.Canonical ∧ (b.node tab level).blocks = [b])
    (apart : parts.IsChain Apart)
    (front : List Node) (w : String)
    (hw : ∀ b ∈ parts.head?, b.isText = true → Text.isAllBlank w = true)
    {blank : String} (hblank : Text.isAllBlank blank = true) :
    Node.blocksAll (appendText (fill tab level (front ++ [.text w]) parts) blank) =
      Node.blocksAll front ++ textBlocks w ++ parts := by
  -- `w` is the text that is still open in front of the parts that are left
  induction parts generalizing front w with
  | nil =>
    rw [fill, appendText_text, Node.blocksAll_append, Node.blocksAll_singleton, Node.blocks,
      textBlocks_append_blank hblank, List.append_nil]
  | cons b parts ih =>
    have hindent := isAllBlank_indent tab level
    have hnewline : Text.isAllBlank "\n" = true := by decide
    have hrest : ∀ c ∈ parts, c.Canonical ∧ (c.node tab level).blocks = [c] :=
      fun c hc => h c (List.mem_cons_of_mem b hc)
    obtain ⟨hcanonical, hnode⟩ := h b List.mem_cons_self
    cases hb : b.isText with
    | false =>
      rw [fill_of_not_text tab level hb, ih hrest apart.tail _ "\n" (fun _ _ _ => hnewline),
        textBlocks_of_isAllBlank hnewline, List.append_nil, Node.blocksAll_append, Node.blocksAll,
        Node.blocksAll_singleton, hnode, Node.blocks, textBlocks_append_blank hindent]
      simp
    | true =>
      have hblankw : Text.isAllBlank w = true := hw b rfl hb
      have hnext : ∀ c ∈ parts.head?, c.isText = false := by
        intro c hc
        cases parts with
        | nil => cases hc
        | cons d parts =>
          cases hc
          exact (List.isChain_cons_cons.1 apart).1.not_text hb
      cases hcanonical with
      | @text s hs =>
        rw [fill_text, ih hrest apart.tail front _ fun c hc htext => ?_,
          textBlocks_append_blank hnewline,
          textBlocks_blank_append (isAllBlank_append hblankw hindent), hs,
          textBlocks_of_isAllBlank hblankw]
        · simp
        · rw [hnext c hc] at htext
          cases htext
      | _ => cases hb

/-- A canonical block is the block of what its lines are read as. -/
theorem Canonical.blocks_node {b : Block} (h : b.Canonical) (tab : Nat) :
    ∀ level, (b.node tab level).blocks = [b] := by
  induction h with
  | text hs =>
    intro level
    rw [node, Node.blocks, hs]
  | comment s =>
    intro level
    rw [node, Node.blocks]
  | empty hsorted =>
    intro level
    rw [node, Node.blocks, hsorted, Node.blocksAll, ofParts]
  | @inline name attributes s hsorted hs =>
    intro level
    have hempty : s.isEmpty = false := by
      by_contra h
      have hs' : s = "" := by simpa using h
      rw [hs', textBlocks_of_isAllBlank (by decide)] at hs
      cases hs
    rw [node, hempty, if_neg (by simp), Node.blocks, hsorted, Node.blocksAll_singleton,
      Node.blocks, hs, ofParts]
  | @nested name attributes parts hsorted hparts hapart hshape ih =>
    intro level
    have hfill := blocksAll_fill tab (level + 1)
      (fun b hb => ⟨hparts b hb, ih b hb (level + 1)⟩) hapart [] "\n" (fun _ _ _ => by decide)
      (isAllBlank_indent tab level)
    have hcontents : Node.blocksAll (contents tab level parts) = parts := by
      have hnewline : textBlocks "\n" = [] := textBlocks_of_isAllBlank (by decide)
      simpa [contents, Node.blocksAll, hnewline] using hfill
    rw [node_nested, Node.blocks, hsorted, hcontents, hshape]

end Block

/-! ## Between the texts of the layout -/

namespace Node

def isText : Node → Bool
  | .text _ => true
  | _ => false

/-- The nodes other than texts. -/
def notTexts (ns : List Node) : List Node := ns.filter fun n => !n.isText

@[simp] theorem notTexts_append (ns ms : List Node) :
    notTexts (ns ++ ms) = notTexts ns ++ notTexts ms := List.filter_append ..

theorem notTexts_eq_self {ns : List Node} (h : ∀ n ∈ ns, n.isText = false) :
    notTexts ns = ns := by
  rw [notTexts, List.filter_eq_self]
  intro n hn
  rw [h n hn]
  rfl

theorem notTexts_appendText (ns : List Node) (s : String) :
    notTexts (appendText ns s) = notTexts ns := by
  rcases List.eq_nil_or_concat ns with rfl | ⟨front, n, rfl⟩
  · rfl
  · rw [List.concat_eq_append]
    cases n with
    | text t => simp [notTexts, isText]
    | comment c => simp [appendText_comment, notTexts, isText]
    | element name attributes children => simp [appendText_element, notTexts, isText]

end Node

namespace Block

theorem notTexts_join (ns : List Node) (n : Node) :
    Node.notTexts (join ns n) = Node.notTexts ns ++ Node.notTexts [n] := by
  cases n with
  | text s => rw [join, Node.notTexts_appendText]; simp [Node.notTexts, Node.isText]
  | comment c => exact Node.notTexts_append ns [.comment c]
  | element name attributes children => exact Node.notTexts_append ns _

theorem notTexts_fill (tab level : Nat) (before : List Node) (parts : List Block) :
    Node.notTexts (fill tab level before parts) =
      Node.notTexts before ++ Node.notTexts (parts.map (node tab level)) := by
  induction parts generalizing before with
  | nil => simp [fill, Node.notTexts]
  | cons b parts ih =>
    rw [fill, ih, Node.notTexts_appendText, notTexts_join, Node.notTexts_appendText,
      List.append_assoc, ← Node.notTexts_append, List.map_cons, List.singleton_append]

/-- Apart from texts, the blocks of an element are read as their nodes. -/
theorem notTexts_contents (tab level : Nat) (parts : List Block) :
    Node.notTexts (contents tab level parts) =
      Node.notTexts (parts.map (node tab (level + 1))) := by
  rw [contents, Node.notTexts_appendText, notTexts_fill]
  simp [Node.notTexts, Node.isText]

/-- What stands in an element are texts and the nodes of its blocks. -/
theorem mem_contents {tab level : Nat} {parts : List Block} {n : Node}
    (h : n ∈ contents tab level parts) :
    (∃ s, n = .text s) ∨ ∃ b ∈ parts, n = b.node tab (level + 1) := by
  cases hkind : n.isText with
  | true =>
    cases n with
    | text s => exact .inl ⟨s, rfl⟩
    | _ => cases hkind
  | false =>
    have hmem : n ∈ Node.notTexts (contents tab level parts) :=
      List.mem_filter.2 ⟨h, by rw [hkind]; rfl⟩
    rw [notTexts_contents] at hmem
    obtain ⟨b, hb, heq⟩ := List.mem_map.1 (List.mem_of_mem_filter hmem)
    exact .inr ⟨b, hb, heq.symm⟩

theorem node_mem_contents {tab level : Nat} {parts : List Block} {b : Block} (hb : b ∈ parts)
    (htext : (b.node tab (level + 1)).isText = false) :
    b.node tab (level + 1) ∈ contents tab level parts := by
  have hmem : b.node tab (level + 1) ∈ Node.notTexts (contents tab level parts) := by
    rw [notTexts_contents]
    exact List.mem_filter.2 ⟨List.mem_map_of_mem hb, by rw [htext]; rfl⟩
  exact List.mem_of_mem_filter hmem

end Block

end TranslationAudit.Markup
