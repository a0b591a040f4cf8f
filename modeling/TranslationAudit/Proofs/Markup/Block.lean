import TranslationAudit.Proofs.Markup.Reading

/-! # Texts in canonical layout

What a writer emits is a tree of blocks, one line for a text, a comment, an element without content
and an element that holds a text only.

* `Block`: a part of a text in canonical layout; `Block.lines`: its lines.
* `Block.node`: the node that its lines are read as, with the blanks of the layout as texts.
* `Block.Sound`: blocks with names for names and comments that are not ended early.
* `parse_document`: a declaration and the lines of a sound block are read as the node of the block.
-/

namespace TranslationAudit.Markup

/-- A part of a text in canonical layout. -/
inductive Block where
  | text (content : String)
  | comment (content : String)
  /-- An element without content. -/
  | empty (name : String) (attributes : List (String × String))
  /-- An element that holds a text only. -/
  | inline (name : String) (attributes : List (String × String)) (content : String)
  /-- An element whose parts have lines of their own. -/
  | nested (name : String) (attributes : List (String × String)) (parts : List Block)
deriving Inhabited

namespace Block

/-! ## Writing -/

mutual

/-- The lines of a block at a level. -/
def lines (tab level : Nat) : Block → List String
  | text s => [indent tab level ++ escape s]
  | comment s => [indent tab level ++ "<!--" ++ s ++ "-->"]
  | empty name attributes => [indent tab level ++ "<" ++ tagText name attributes ++ "/>"]
  | inline name attributes s =>
    [indent tab level ++ "<" ++ tagText name attributes ++ ">" ++ escape s ++ "</" ++ name ++ ">"]
  | nested name attributes parts =>
    [indent tab level ++ "<" ++ tagText name attributes ++ ">"] ++
      linesAll tab (level + 1) parts ++ [indent tab level ++ "</" ++ name ++ ">"]

/-- The lines of several blocks at a level. -/
def linesAll (tab level : Nat) : List Block → List String
  | [] => []
  | b :: rest => b.lines tab level ++ linesAll tab level rest

end

@[simp] theorem linesAll_append (tab level : Nat) (bs cs : List Block) :
    linesAll tab level (bs ++ cs) = linesAll tab level bs ++ linesAll tab level cs := by
  induction bs with
  | nil => rfl
  | cons b bs ih => rw [List.cons_append, linesAll, linesAll, ih, List.append_assoc]

theorem linesAll_flatMap {α : Type} (tab level : Nat) (f : α → List Block) (xs : List α) :
    linesAll tab level (xs.flatMap f) = xs.flatMap fun x => linesAll tab level (f x) := by
  induction xs with
  | nil => rfl
  | cons x xs ih => rw [List.flatMap_cons, linesAll_append, ih, List.flatMap_cons]

@[simp] theorem linesAll_singleton (tab level : Nat) (b : Block) :
    linesAll tab level [b] = b.lines tab level := by
  rw [linesAll, linesAll, List.append_nil]

/-! ## Reading -/

/-- Puts a node behind others, where a text joins a text. -/
def join (nodes : List Node) : Node → List Node
  | .text s => appendText nodes s
  | n => nodes ++ [n]

mutual

/-- The node that the lines of a block are read as. -/
def node (tab level : Nat) : Block → Node
  | text s => .text s
  | comment s => .comment s
  | empty name attributes => .element name attributes []
  | inline name attributes s => .element name attributes (if s.isEmpty then [] else [.text s])
  | nested name attributes parts =>
    .element name attributes
      (appendText (fill tab (level + 1) [.text "\n"] parts) (indent tab level))

/-- The nodes that the lines of blocks are read as, behind nodes that were read before. -/
def fill (tab level : Nat) (before : List Node) : List Block → List Node
  | [] => before
  | b :: rest =>
    fill tab level
      (appendText (join (appendText before (indent tab level)) (b.node tab level)) "\n") rest

end

/-- The children of an element whose blocks have lines of their own. -/
def contents (tab level : Nat) (parts : List Block) : List Node :=
  appendText (fill tab (level + 1) [.text "\n"] parts) (indent tab level)

theorem node_nested (tab level : Nat) (name : String) (attributes : List (String × String))
    (parts : List Block) :
    (nested name attributes parts).node tab level =
      .element name attributes (contents tab level parts) := by
  rw [node, contents]

/-! ## Sound blocks -/

/-- Blocks that can be read back. -/
inductive Sound : Block → Prop where
  | text (s : String) : Sound (.text s)
  | comment {s : String} : IsComment s → Sound (.comment s)
  | empty {name : String} {attributes : List (String × String)} :
      isName name = true → AttributesNamed attributes → Sound (.empty name attributes)
  | inline {name : String} {attributes : List (String × String)} (s : String) :
      isName name = true → AttributesNamed attributes → Sound (.inline name attributes s)
  | nested {name : String} {attributes : List (String × String)} {parts : List Block} :
      isName name = true → AttributesNamed attributes → (∀ b ∈ parts, Sound b) →
        Sound (.nested name attributes parts)

end Block

/-! ## The reading of lines -/

/-- Lines, each ended by a line feed. -/
def linesText (ls : List String) : List Char := ls.flatMap fun l => l.toList ++ ['\n']

@[simp] theorem linesText_nil : linesText [] = [] := rfl

@[simp] theorem linesText_append (ls ms : List String) :
    linesText (ls ++ ms) = linesText ls ++ linesText ms := List.flatMap_append

@[simp] theorem linesText_cons (l : String) (ls : List String) :
    linesText (l :: ls) = l.toList ++ '\n' :: linesText ls := by
  simp [linesText]

/-- Nodes of which the last is a text. -/
def EndsInText (ns : List Node) : Prop := ∃ front s, ns = front ++ [.text s]

theorem endsInText_appendText (ns : List Node) (s : String) : EndsInText (appendText ns s) := by
  rcases List.eq_nil_or_concat ns with rfl | ⟨front, n, rfl⟩
  · exact ⟨[], s, rfl⟩
  · rw [List.concat_eq_append]
    cases n with
    | text u => exact ⟨front, u ++ s, appendText_text front u s⟩
    | comment c => exact ⟨front ++ [.comment c], s, by simp [appendText_comment]⟩
    | element name attributes children =>
      exact ⟨front ++ [.element name attributes children], s, by simp [appendText_element]⟩

theorem EndsInText.appendText_empty {ns : List Node} (h : EndsInText ns) :
    appendText ns "" = ns := by
  obtain ⟨front, s, rfl⟩ := h
  rw [appendText_text, String.append_empty]

section Lines

variable (name : String) (attributes : List (String × String)) (outer : List Element)
variable (root : Option Element)

/-- The building in whose innermost open element nodes have been read. -/
def inside (ns : List Node) : Building := ⟨⟨name, attributes, ns⟩ :: outer, root⟩

/-- Escaped text is read into the innermost open element. Where nothing is read, nothing but a
text may stand last, or an empty text would make a difference. -/
theorem readInto_inside_escaped (ns : List Node) (s : String)
    (h : s = "" → EndsInText ns) (rest : List Char) :
    readInto (inside name attributes outer root ns) (escaped s.toList ++ rest) =
      readInto (inside name attributes outer root (appendText ns s)) rest := by
  by_cases hs : s = ""
  · subst hs
    rw [(h rfl).appendText_empty]
    rfl
  · have hne : s.toList ≠ [] := fun e => hs (String.toList_inj.1 (by simpa using e))
    rw [readInto_escaped hne _ (by simp [inside])]
    rw [String.ofList_toList]
    rfl

/-- The text of an element without other contents. An empty text adds no node, so the element stays
without children. -/
theorem readInto_content (s : String) (rest : List Char) :
    readInto (inside name attributes outer root []) (escaped s.toList ++ rest) =
      readInto (inside name attributes outer root (if s.isEmpty then [] else [.text s])) rest := by
  by_cases hs : s = ""
  · subst hs
    rfl
  · have hempty : s.isEmpty = false := by simpa using hs
    rw [hempty]
    exact readInto_inside_escaped name attributes outer root [] s (fun e => absurd e hs) rest

theorem escaped_indent (tab level : Nat) :
    escaped (indent tab level).toList = (indent tab level).toList := by
  apply escaped_of_not_special
  intro c hc
  rw [indent, String.toList_ofList, List.mem_replicate] at hc
  rw [hc.2]
  decide

theorem readInto_indent {ns : List Node} (h : EndsInText ns) (tab level : Nat)
    (rest : List Char) :
    readInto (inside name attributes outer root ns) ((indent tab level).toList ++ rest) =
      readInto (inside name attributes outer root (appendText ns (indent tab level))) rest := by
  have hread := readInto_inside_escaped name attributes outer root ns (indent tab level)
    (fun _ => h) rest
  rwa [escaped_indent] at hread

theorem readInto_newline (ns : List Node) (rest : List Char) :
    readInto (inside name attributes outer root ns) ('\n' :: rest) =
      readInto (inside name attributes outer root (appendText ns "\n")) rest := by
  have hread := readInto_inside_escaped name attributes outer root ns "\n" (by simp) rest
  have hescaped : escaped "\n".toList = ['\n'] := by decide
  rwa [hescaped, List.singleton_append] at hread

/-- What the lines of a block do to the innermost open element. -/
def Reads (tab level : Nat) (b : Block) : Prop :=
  ∀ (name : String) (attributes : List (String × String)) (outer : List Element)
    (root : Option Element) (ns : List Node), EndsInText ns → ∀ rest : List Char,
      readInto (inside name attributes outer root ns) (linesText (b.lines tab level) ++ rest) =
        readInto (inside name attributes outer root
          (appendText (Block.join (appendText ns (indent tab level)) (b.node tab level)) "\n")) rest

theorem readInto_linesAll {tab level : Nat} {parts : List Block}
    (h : ∀ b ∈ parts, Reads tab level b) (ns : List Node) (hns : EndsInText ns)
    (rest : List Char) :
    EndsInText (Block.fill tab level ns parts) ∧
      readInto (inside name attributes outer root ns)
          (linesText (Block.linesAll tab level parts) ++ rest) =
        readInto (inside name attributes outer root (Block.fill tab level ns parts)) rest := by
  induction parts generalizing ns with
  | nil => simpa [Block.fill, Block.linesAll] using hns
  | cons b parts ih =>
    have hb := h b List.mem_cons_self name attributes outer root ns hns
      (linesText (Block.linesAll tab level parts) ++ rest)
    have hends := endsInText_appendText
      (Block.join (appendText ns (indent tab level)) (b.node tab level)) "\n"
    have hrest := ih (fun c hc => h c (List.mem_cons_of_mem b hc)) _ hends
    rw [Block.fill, Block.linesAll, linesText_append, List.append_assoc]
    exact ⟨hrest.1, hb.trans hrest.2⟩

end Lines

/-- The lines of a sound block are read as its node. -/
theorem Block.Sound.reads {b : Block} (h : b.Sound) (tab : Nat) :
    ∀ level, Reads tab level b := by
  induction h with
  | text s =>
    intro level name attributes outer root ns hns rest
    have hline : linesText ((Block.text s).lines tab level) ++ rest =
        (indent tab level).toList ++ (escaped s.toList ++ '\n' :: rest) := by
      simp [Block.lines, toList_escape]
    rw [hline, readInto_indent _ _ _ _ hns,
      readInto_inside_escaped _ _ _ _ _ s (fun _ => endsInText_appendText ns _),
      readInto_newline]
    rfl
  | @comment s hs =>
    intro level name attributes outer root ns hns rest
    have hline : linesText ((Block.comment s).lines tab level) ++ rest =
        (indent tab level).toList ++
          ("<!--".toList ++ s.toList ++ "-->".toList ++ '\n' :: rest) := by
      simp [Block.lines]
    rw [hline, readInto_indent _ _ _ _ hns, readInto_comment hs]
    exact readInto_newline name attributes outer root _ rest
  | @empty tag as htag has =>
    intro level name attributes outer root ns hns rest
    have hline : linesText ((Block.empty tag as).lines tab level) ++ rest =
        (indent tab level).toList ++
          ('<' :: (tagText tag as).toList ++ '/' :: '>' :: '\n' :: rest) := by
      simp [Block.lines]
    rw [hline, readInto_indent _ _ _ _ hns, inside, readInto_empty htag has]
    exact readInto_newline name attributes outer root _ rest
  | @inline tag as s htag has =>
    intro level name attributes outer root ns hns rest
    have hline : linesText ((Block.inline tag as s).lines tab level) ++ rest =
        (indent tab level).toList ++ ('<' :: (tagText tag as).toList ++
          '>' :: (escaped s.toList ++ ('<' :: '/' :: tag.toList ++ '>' :: '\n' :: rest))) := by
      simp [Block.lines, toList_escape]
    rw [hline, readInto_indent _ _ _ _ hns, inside, readInto_opening htag has _ (by simp), ← inside,
      readInto_content, inside, readInto_closing htag]
    exact readInto_newline name attributes outer root _ rest
  | @nested tag as parts htag has _ ih =>
    intro level name attributes outer root ns hns rest
    have hline : linesText ((Block.nested tag as parts).lines tab level) ++ rest =
        (indent tab level).toList ++ ('<' :: (tagText tag as).toList ++
          '>' :: '\n' :: (linesText (Block.linesAll tab (level + 1) parts) ++
            ((indent tab level).toList ++ ('<' :: '/' :: tag.toList ++ '>' :: '\n' :: rest)))) := by
      simp [Block.lines]
    rw [hline, readInto_indent _ _ _ _ hns, inside, readInto_opening htag has _ (by simp),
      ← inside, readInto_newline, appendText_nil]
    obtain ⟨hends, hparts⟩ := readInto_linesAll tag as
      (⟨name, attributes, appendText ns (indent tab level)⟩ :: outer) root
      (fun b hb => ih b hb (level + 1)) [.text "\n"] ⟨[], "\n", rfl⟩
      ((indent tab level).toList ++ ('<' :: '/' :: tag.toList ++ '>' :: '\n' :: rest))
    rw [hparts, readInto_indent _ _ _ _ hends, inside, readInto_closing htag,
      Block.node_nested]
    exact readInto_newline name attributes outer root _ rest

/-! ## Documents -/

/-- The line before the root element. -/
def declaration : String := "<?xml version=\"1.0\" encoding=\"UTF-8\"?>"

/-- Lines as a text. -/
def joinLines (ls : List String) : String := String.join (ls.map (· ++ "\n"))

theorem toList_joinLines (ls : List String) : (joinLines ls).toList = linesText ls := by
  simp [joinLines, linesText, List.flatMap_map]

theorem readInto_newline_outside (root : Option Element) (rest : List Char) :
    readInto ⟨[], root⟩ ('\n' :: rest) = readInto ⟨[], root⟩ rest := by
  have hread := readInto_escaped (u := ['\n']) (by simp) ⟨[], root⟩ (fun _ => by decide) rest
  have hescaped : escaped ['\n'] = ['\n'] := by decide
  rwa [hescaped, List.singleton_append] at hread

/-- A document in canonical layout is read as the node of its root block. -/
theorem parse_document {name : String} {attributes : List (String × String)}
    {parts : List Block} (h : (Block.nested name attributes parts).Sound) (tab : Nat) :
    parse (joinLines (declaration :: (Block.nested name attributes parts).lines tab 0)) =
      .ok ⟨name, attributes, Block.contents tab 0 parts⟩ := by
  rw [parse_eq_ok_iff, toList_joinLines]
  obtain - | - | - | - | ⟨hname, hattributes, hparts⟩ := h
  refine ⟨⟨[], some ⟨name, attributes, Block.contents tab 0 parts⟩⟩, ?_, rfl⟩
  have hzero : indent tab 0 = "" := by simp [indent]
  have htext : withoutMark (linesText
        (declaration :: (Block.nested name attributes parts).lines tab 0)) =
      declaration.toList ++ '\n' :: ('<' :: (tagText name attributes).toList ++
        '>' :: '\n' :: (linesText (Block.linesAll tab 1 parts) ++
          ((indent tab 0).toList ++ ('<' :: '/' :: name.toList ++ ['>', '\n'])))) := by
    have hcons : linesText (declaration :: (Block.nested name attributes parts).lines tab 0) =
        '<' :: (declaration.toList.tail ++ '\n' ::
          linesText ((Block.nested name attributes parts).lines tab 0)) := by
      simp [declaration]
    rw [hcons]
    simp [withoutMark, Block.lines, hzero, declaration]
  have hdeclaration : declaration.toList =
      '<' :: '?' :: 'x' :: "ml version=\"1.0\" encoding=\"UTF-8\"".toList ++ "?>".toList := by
    decide
  rw [htext, hdeclaration, readInto_instruction (by decide) (by decide),
    readInto_newline_outside, readInto_opening hname hattributes _ (by simp),
    ← inside, readInto_newline, appendText_nil]
  obtain ⟨hends, hread⟩ := readInto_linesAll name attributes [] none
    (fun b hb => (hparts b hb).reads tab 1) [.text "\n"] ⟨[], "\n", rfl⟩
    ((indent tab 0).toList ++ ('<' :: '/' :: name.toList ++ ['>', '\n']))
  rw [hread, readInto_indent _ _ _ _ hends, inside, readInto_closing_root hname,
    readInto_newline_outside, readInto_nil, ← Block.contents]

end TranslationAudit.Markup
