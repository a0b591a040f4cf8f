import TranslationAudit.Proofs.Collect.KeyLine
import TranslationAudit.Proofs.Collection.Dict

/-! # Labels of block mappings

* `NodeType.Mapping`: block mappings of any depth, with blank lines and comments between their
  entries. `NodeType.Mapping.lines` writes them line by line.
* `NodeType.labels_mapping`: reading these lines finds the marked labels of the mapping, each below
  the keys around it. The blocks that are open afterwards lie within the mapping.
* `NodeType.Forest`: node types with their mappings. `NodeType.collectNodeTypes_forest` gives the
  references of their file.
-/

namespace TranslationAudit.NodeType

open Text

/-! ## Mappings -/

/-- A line without an entry: a blank one or a comment. -/
structure Skip where
  text : List Char
  skipped : allBlank text = true ∨ ∃ u r, allBlank u = true ∧ text = u ++ '#' :: r

/-- A value on the line of its key, with the blanks before it. -/
structure Scalar where
  text : List Char
  startsValue : startsValue text = true
  notBlank : allBlank text = false

/-- Blanks behind a key. -/
structure Blanks where
  text : List Char
  blank : allBlank text = true

/-- The entries of a mapping in their order, and the lines between them. The entries of a block
stand by `step + 1` spaces deeper than its key. -/
inductive Mapping where
  | done
  | skip (line : Skip) (rest : Mapping)
  | leaf (key : Word) (value : Scalar) (rest : Mapping)
  | block (key : Word) (blanks : Blanks) (step : Nat) (inner rest : Mapping)

def isMarked (key : Word) (value : Scalar) : Bool :=
  isMarker (String.ofList key.text) (trim value.text)

namespace Mapping

def lines (indent : Nat) : Mapping → List (List Char)
  | done => []
  | skip line rest => line.text :: rest.lines indent
  | leaf key value rest => keyLine indent key.text value.text :: rest.lines indent
  | block key blanks step inner rest =>
    keyLine indent key.text blanks.text ::
      (inner.lines (indent + step + 1) ++ rest.lines indent)

/-- The number of lines. -/
def size : Mapping → Nat
  | done => 0
  | skip _ rest => rest.size + 1
  | leaf _ _ rest => rest.size + 1
  | block _ _ _ inner rest => inner.size + rest.size + 1

/-- The marked labels of a mapping whose first line is the given one, below a path of keys. -/
def labels (number : Nat) (path : List String) : Mapping → List Label
  | done => []
  | skip _ rest => rest.labels (number + 1) path
  | leaf key value rest =>
    (if isMarked key value then [⟨number, path⟩] else []) ++ rest.labels (number + 1) path
  | block key _ _ inner rest =>
    inner.labels (number + 1) (path ++ [String.ofList key.text]) ++
      rest.labels (number + 1 + inner.size) path

end Mapping

/-! ## Reading a mapping -/

section Reading

variable {line key value : List Char} {indent number : Nat} {opened inside outside : List Frame}

theorem trim_of_allBlank {s : List Char} (h : allBlank s = true) : trim s = [] :=
  trim_append_blank h []

theorem Skip.isSkipped_trim (s : Skip) : isSkipped (trim s.text) = true := by
  obtain ⟨text, hblank | ⟨u, r, hu, rfl⟩⟩ := s
  · simp only [trim_of_allBlank hblank]
    rfl
  · have htrim : trim (u ++ '#' :: r) = trimEnd ('#' :: r) := trim_blank_append hu _
    have hne : trimEnd ('#' :: r) ≠ [] := by
      rw [trimEnd, dropEndWhile_eq, Ne, List.rdropWhile_eq_nil_iff]
      exact fun hblank => absurd (hblank '#' List.mem_cons_self) (by decide)
    obtain ⟨c, t, ht⟩ := List.exists_cons_of_ne_nil hne
    obtain ⟨v, hv⟩ : trimEnd ('#' :: r) <+: '#' :: r := List.rdropWhile_prefix _ _
    rw [ht] at hv
    obtain ⟨rfl, -⟩ := List.cons_eq_cons.1 hv
    simp only [htrim, ht]
    rfl

theorem Scalar.isEmpty_trim (s : Scalar) : (trim s.text).isEmpty = false := by
  rw [List.isEmpty_eq_false_iff]
  intro h
  have hblank := allBlank_trim s.text
  rw [h, s.notBlank] at hblank
  cases hblank

theorem labels_skip (s : Skip) (number : Nat) (opened : List Frame) (rest : List (List Char)) :
    NodeType.labels number opened (s.text :: rest) = NodeType.labels (number + 1) opened rest := by
  rw [NodeType.labels, s.isSkipped_trim]
  rfl

/-- The blocks that are closed before a line: those that do not lie around its indent. -/
theorem dropWhile_inside (hinside : ∀ f ∈ inside, indent ≤ f.indent)
    (houtside : ∀ f, outside.head? = some f → f.indent < indent) :
    (inside ++ outside).dropWhile (fun f => f.indent ≥ indent) = outside := by
  rw [List.dropWhile_append_of_pos (by simpa using hinside)]
  cases outside with
  | nil => rfl
  | cons f outside =>
    have hf := houtside f rfl
    rw [List.dropWhile_cons, if_neg (by simpa using hf)]

theorem Reads.labels (h : Reads line indent key value)
    (hinside : ∀ f ∈ inside, indent ≤ f.indent)
    (houtside : ∀ f, outside.head? = some f → f.indent < indent) (number : Nat)
    (rest : List (List Char)) :
    NodeType.labels number (inside ++ outside) (line :: rest) =
      if value.isEmpty then
        NodeType.labels (number + 1) (⟨String.ofList key, indent⟩ :: outside) rest
      else
        (if isMarker (String.ofList key) value then
          [⟨number, (outside.map Frame.key).reverse⟩] else []) ++
          NodeType.labels (number + 1) outside rest := by
  rw [NodeType.labels]
  simp only [h.notSkipped, h.indentOf, h.splitKeyLine?, dropWhile_inside hinside houtside]
  cases value.isEmpty <;> cases isMarker (String.ofList key) value <;> rfl

/-- The entries of a mapping are read one after the other. `inside` are the blocks that lie within
the mapping, `outside` those around it. -/
theorem labels_mapping (m : Mapping) (indent number : Nat) (inside outside : List Frame)
    (hinside : ∀ f ∈ inside, indent ≤ f.indent)
    (houtside : ∀ f, outside.head? = some f → f.indent < indent) (rest : List (List Char)) :
    ∃ inside' : List Frame, (∀ f ∈ inside', indent ≤ f.indent) ∧
      NodeType.labels number (inside ++ outside) (m.lines indent ++ rest) =
        m.labels number (outside.map Frame.key).reverse ++
          NodeType.labels (number + m.size) (inside' ++ outside) rest := by
  induction m generalizing indent number inside outside rest with
  | done => exact ⟨inside, hinside, rfl⟩
  | skip line m ih =>
    obtain ⟨inside', hinside', hrest⟩ := ih indent (number + 1) inside outside hinside houtside rest
    refine ⟨inside', hinside', ?_⟩
    rw [Mapping.lines, List.cons_append, labels_skip, hrest, Mapping.labels, Mapping.size,
      Nat.add_right_comm, Nat.add_assoc]
  | leaf key value m ih =>
    obtain ⟨inside', hinside', hrest⟩ := ih indent (number + 1) [] outside nofun houtside rest
    have hread := reads_keyLine key.written value.startsValue indent
    have hsize : number + 1 + m.size = number + (m.size + 1) := by omega
    rw [List.nil_append, hsize] at hrest
    refine ⟨inside', hinside', ?_⟩
    rw [Mapping.lines, List.cons_append, hread.labels hinside houtside, value.isEmpty_trim,
      if_neg Bool.false_ne_true, hrest, Mapping.labels, Mapping.size, List.append_assoc]
    rfl
  | block key blanks step inner m ihinner ih =>
    have hread := reads_keyLine key.written (startsValue_of_allBlank blanks.blank) indent
    -- the inner mapping lies within the block of this key, and what follows it does not
    obtain ⟨deep, hdeep, hinner⟩ := ihinner (indent + step + 1) (number + 1) []
      (⟨String.ofList key.text, indent⟩ :: outside) nofun
      (by rintro f ⟨⟩; exact Nat.lt_succ_of_le (Nat.le_add_right _ _)) (m.lines indent ++ rest)
    have hclosed : ∀ f ∈ deep ++ [⟨String.ofList key.text, indent⟩], indent ≤ f.indent := by
      intro f hf
      rw [List.mem_append, List.mem_singleton] at hf
      obtain hf | rfl := hf
      · have hle := hdeep f hf
        omega
      · exact Nat.le_refl _
    obtain ⟨inside', hinside', hrest⟩ := ih indent (number + 1 + inner.size)
      (deep ++ [⟨String.ofList key.text, indent⟩]) outside hclosed houtside rest
    have hsize : number + 1 + inner.size + m.size = number + (inner.size + m.size + 1) := by omega
    rw [List.append_assoc, List.singleton_append, hsize] at hrest
    rw [List.nil_append, hrest, List.map_cons, List.reverse_cons] at hinner
    refine ⟨inside', hinside', ?_⟩
    rw [Mapping.lines, List.cons_append, hread.labels hinside houtside,
      trim_of_allBlank blanks.blank, if_pos List.isEmpty_nil, List.append_assoc, hinner,
      Mapping.labels, Mapping.size, List.append_assoc]

end Reading

/-! ## Node types -/

/-- A node type: its name in quotes, with a colon behind the package, and the mapping below it. -/
structure Root where
  package : List Char
  name : List Char
  quote : Char
  blanks : Blanks
  step : Nat
  body : Mapping
  isQuote : IsQuote quote
  notBlank : allBlank package = false
  plain : ∀ c ∈ package ++ name, c ≠ '"' ∧ c ≠ '\'' ∧ c ≠ ':'

namespace Root

def key (root : Root) : List Char := root.package ++ ':' :: root.name

def lines (root : Root) : List (List Char) :=
  keyLine 0 (root.quote :: (root.key ++ [root.quote])) root.blanks.text ::
    root.body.lines (root.step + 1)

end Root

/-- The marked labels of node types whose first line is the given one, each with its node type and
the keys below it. -/
def rootLabels (number : Nat) : List Root → List (Root × Label)
  | [] => []
  | root :: roots =>
    (root.body.labels (number + 1) []).map (fun label => (root, label)) ++
      rootLabels (number + 1 + root.body.size) roots

/-- The node types of a file, of different names, and the lines before them. -/
structure Forest where
  leading : List Skip
  roots : List Root
  distinct : (roots.map Root.key).Nodup

namespace Forest

def lines (f : Forest) : List (List Char) :=
  f.leading.map Skip.text ++ f.roots.flatMap Root.lines

def labels (f : Forest) : List (Root × Label) := rootLabels (f.leading.length + 1) f.roots

end Forest

/-! ## Labels below node types -/

section Labels

theorem Root.reads (root : Root) :
    Reads (keyLine 0 (root.quote :: (root.key ++ [root.quote])) root.blanks.text) 0 root.key [] := by
  have hquote : root.quote ∉ root.key := by
    intro hmem
    have hplain : root.quote ∈ root.package ++ root.name ∨ root.quote = ':' := by
      simp only [Root.key, List.mem_append, List.mem_cons] at hmem ⊢
      tauto
    obtain hplain | hcolon := hplain
    · have h := root.plain _ hplain
      exact root.isQuote.elim h.1 h.2.1
    · obtain hq | hq := root.isQuote <;> rw [hq] at hcolon <;> cases hcolon
  have hwritten := written_quoted root.isQuote (by simp [Root.key]) hquote
  have hread := reads_keyLine hwritten (startsValue_of_allBlank root.blanks.blank) 0
  rwa [trim_of_allBlank root.blanks.blank] at hread

/-- A label with a further key above it. -/
def Label.below (k : String) (label : Label) : Label := { label with path := k :: label.path }

theorem Mapping.labels_below (m : Mapping) (number : Nat) (k : String) (path : List String) :
    m.labels number (k :: path) = (m.labels number path).map (Label.below k) := by
  induction m generalizing number path with
  | done => rfl
  | skip line m ih => exact ih _ _
  | leaf key value m ih =>
    rw [Mapping.labels, Mapping.labels, ih, List.map_append]
    cases isMarked key value <;> rfl
  | block key blanks step inner m ihinner ih =>
    rw [Mapping.labels, Mapping.labels, ih, List.cons_append, ihinner, List.map_append]

theorem labels_roots (roots : List Root) (number : Nat) (inside : List Frame) :
    labels number inside (roots.flatMap Root.lines) =
      (rootLabels number roots).map fun (root, label) =>
        label.below (String.ofList root.key) := by
  induction roots generalizing number inside with
  | nil => rfl
  | cons root roots ih =>
    obtain ⟨inside', -, hbody⟩ := labels_mapping root.body (root.step + 1) (number + 1) []
      [⟨String.ofList root.key, 0⟩] nofun (by rintro f ⟨⟩; exact Nat.succ_pos _)
      (roots.flatMap Root.lines)
    rw [List.nil_append, ih] at hbody
    rw [List.flatMap_cons, Root.lines, List.cons_append, ← List.append_nil inside,
      root.reads.labels (fun _ _ => Nat.zero_le _) (by simp), if_pos List.isEmpty_nil, hbody,
      rootLabels, List.map_append, List.map_map]
    congr 1
    exact Mapping.labels_below _ _ _ _

theorem labels_leading (leading : List Skip) (number : Nat) (rest : List (List Char)) :
    labels number [] (leading.map Skip.text ++ rest) = labels (number + leading.length) [] rest := by
  induction leading generalizing number with
  | nil => rfl
  | cons line leading ih =>
    rw [List.map_cons, List.cons_append, labels_skip, ih, List.length_cons, Nat.add_assoc,
      Nat.add_comm 1]

theorem Forest.labels_lines (f : Forest) :
    NodeType.labels 1 [] f.lines =
      f.labels.map fun (root, label) => label.below (String.ofList root.key) := by
  rw [Forest.lines, labels_leading, labels_roots, Forest.labels, Nat.add_comm]

end Labels

/-! ## Contexts of node types -/

section Contexts

theorem blockName?_skip (s : Skip) : blockName? s.text = none := by
  simp [blockName?, s.isSkipped_trim]

theorem Reads.blockName?_eq {line key value : List Char} {indent : Nat}
    (h : Reads line indent key value) :
    blockName? line = if indent = 0 then some (String.ofList key) else none := by
  by_cases hindent : indent = 0 <;>
    simp [blockName?, h.notSkipped, h.indentOf, h.splitKeyLine?, hindent]

theorem Mapping.blockName?_eq_none (m : Mapping) {indent : Nat} (hindent : indent ≠ 0)
    {line : List Char} (hline : line ∈ m.lines indent) : blockName? line = none := by
  induction m generalizing indent with
  | done => cases hline
  | skip s m ih =>
    obtain rfl | hline := List.mem_cons.1 hline
    · exact blockName?_skip s
    · exact ih hindent hline
  | leaf key value m ih =>
    obtain rfl | hline := List.mem_cons.1 hline
    · rw [(reads_keyLine key.written value.startsValue indent).blockName?_eq, if_neg hindent]
    · exact ih hindent hline
  | block key blanks step inner m ihinner ih =>
    have hblanks := startsValue_of_allBlank blanks.blank
    obtain rfl | hline := List.mem_cons.1 hline
    · rw [(reads_keyLine key.written hblanks indent).blockName?_eq, if_neg hindent]
    · obtain hline | hline := List.mem_append.1 hline
      · exact ihinner (Nat.succ_ne_zero _) hline
      · exact ih hindent hline

theorem blocks_append {ls : List (List Char)} (h : ∀ line ∈ ls, blockName? line = none)
    (rest : List (List Char)) :
    blocks (ls ++ rest) = ((blocks rest).1, ls ++ (blocks rest).2) := by
  induction ls with
  | nil => rfl
  | cons line ls ih =>
    rw [List.forall_mem_cons] at h
    rw [List.cons_append, blocks, ih h.2, h.1]
    rfl

theorem blocks_roots (roots : List Root) :
    blocks (roots.flatMap Root.lines) =
      (roots.map fun root => (String.ofList root.key, root.lines), []) := by
  induction roots with
  | nil => rfl
  | cons root roots ih =>
    have hbody : ∀ line ∈ root.body.lines (root.step + 1), blockName? line = none :=
      fun line => root.body.blockName?_eq_none (Nat.succ_ne_zero _)
    rw [List.flatMap_cons, Root.lines, List.cons_append, blocks, blocks_append hbody, ih,
      root.reads.blockName?_eq, if_pos rfl, List.append_nil]
    rfl

/-- The text of a node type. -/
def Root.text (root : Root) : String := Text.unlines (root.lines.map String.ofList)

theorem Forest.get?_contexts (f : Forest) {root : Root} (hroot : root ∈ f.roots) :
    (contexts f.lines).get? (String.ofList root.key) = some root.text := by
  have hleading : ∀ line ∈ f.leading.map Skip.text, blockName? line = none := by
    rintro line hline
    obtain ⟨s, -, rfl⟩ := List.mem_map.1 hline
    exact blockName?_skip s
  rw [contexts, Forest.lines, blocks_append hleading, blocks_roots]
  refine Dict.get?_ofList_of_mem ?_ (List.mem_map.2 ⟨(_, _), List.mem_map_of_mem hroot, rfl⟩)
  have hdistinct : ((f.roots.map Root.key).map String.ofList).Nodup :=
    List.Pairwise.map _ (fun _ _ hne heq => hne (String.ofList_injective heq)) f.distinct
  rw [List.map_map] at hdistinct ⊢
  simpa [Function.comp_def] using hdistinct

end Contexts

/-! ## References of node types -/

section References

theorem Mapping.isWord_of_mem_labels {m : Mapping} {number : Nat} {path : List String}
    (hpath : ∀ w ∈ path, IsWord w) {label : Label} (h : label ∈ m.labels number path) :
    ∀ w ∈ label.path, IsWord w := by
  induction m generalizing number path with
  | done => cases h
  | skip line m ih => exact ih hpath h
  | leaf key value m ih =>
    obtain h | h := List.mem_append.1 h
    · split at h
      · rw [List.mem_singleton.1 h]
        exact hpath
      · cases h
    · exact ih hpath h
  | block key blanks step inner m ihinner ih =>
    obtain h | h := List.mem_append.1 h
    · refine ihinner (fun w hw => ?_) h
      obtain hw | hw := List.mem_append.1 hw
      · exact hpath w hw
      · rw [List.mem_singleton.1 hw]
        exact key.isWord
    · exact ih hpath h

theorem mem_rootLabels {roots : List Root} {number : Nat} {root : Root} {label : Label}
    (h : (root, label) ∈ rootLabels number roots) :
    root ∈ roots ∧ ∀ w ∈ label.path, IsWord w := by
  induction roots generalizing number with
  | nil => cases h
  | cons next roots ih =>
    obtain h | h := List.mem_append.1 h
    · obtain ⟨label', hmem, heq⟩ := List.mem_map.1 h
      cases heq
      exact ⟨List.mem_cons_self, Mapping.isWord_of_mem_labels (by simp) hmem⟩
    · exact ⟨List.mem_cons_of_mem _ (ih h).1, (ih h).2⟩

theorem resolveKey_word {id package : String} (hid : IsWord id)
    (hpackage : isAllBlank package = false) (source : Option String) :
    resolveKey id (some package) source = some ⟨trimmed package, normalizeSource source, id⟩ := by
  have hcolon : ':' ∉ id.toList := fun hmem =>
    ne_of_isKeyChar (hid.chars _ hmem) List.mem_cons_self
  have hshorthand : splitShorthand id.toList = none := by
    rw [splitShorthand, cutAt?_eq_none hcolon]
  have hgiven : (trimmed package).isEmpty = false := by
    have hne : trim package.toList ≠ [] := by
      intro hempty
      rw [isAllBlank, ← allBlank_trim, hempty] at hpackage
      cases hpackage
    simpa [trimmed] using hne
  have hne : id.toList.isEmpty = false := by simpa using hid.ne_empty
  simp only [resolveKey, trim_of_isKeyChar hid.chars, hshorthand, Option.getD_some, hgiven, hne]
  simp

theorem map_some_filterMap {α β : Type} {f : α → Option β} {xs : List α}
    (h : ∀ x ∈ xs, (f x).isSome) : (xs.filterMap f).map some = xs.map f := by
  induction xs with
  | nil => rfl
  | cons x xs ih =>
    rw [List.forall_mem_cons] at h
    obtain ⟨y, hy⟩ := Option.isSome_iff_exists.1 h.1
    rw [List.filterMap_cons_some hy, List.map_cons, List.map_cons, ih h.2, hy]

/-- What the references of a marked label say. -/
theorem reference?_below {f : Forest} {root : Root} {label : Label}
    (h : (root, label) ∈ f.labels) (file : String) :
    ∃ id, deriveId? (label.path ++ ["label"]) = some id ∧
      reference? file (sourceOf file) (contexts f.lines) (label.below (String.ofList root.key)) =
        some
          { key :=
              { package := trimmed (String.ofList root.package)
                source := normalizeSource (some (sourceOf file))
                id }
            file
            line := label.line
            format := .yaml
            schemaContext := some root.text } := by
  obtain ⟨hroot, hwords⟩ := mem_rootLabels h
  obtain ⟨id, hid, hword⟩ := exists_deriveId? hwords
  have hcut : cutAt? ':' (String.ofList root.key).toList = some (root.package, root.name) := by
    rw [String.toList_ofList]
    refine cutAt?_append (fun hmem => ?_) _
    exact (root.plain _ (List.mem_append_left _ hmem)).2.2 rfl
  refine ⟨id, hid, ?_⟩
  simp only [reference?, Label.below, hcut, hid, f.get?_contexts hroot]
  rw [resolveKey_word hword (by simpa [isAllBlank] using root.notBlank)]
  rfl

/-- The references of a file of node types: one for each marked label, in their order. -/
theorem collectNodeTypes_forest {text : String} {f : Forest}
    (htext : Text.lines text.toList = f.lines) (file : String) :
    (collectNodeTypes file text).map some = f.labels.map fun (root, label) =>
      (deriveId? (label.path ++ ["label"])).map fun id =>
        { key :=
            { package := trimmed (String.ofList root.package)
              source := normalizeSource (some (sourceOf file))
              id }
          file
          line := label.line
          format := .yaml
          schemaContext := some root.text } := by
  have hcollect : collectNodeTypes file text =
      f.labels.filterMap fun (root, label) => reference? file (sourceOf file) (contexts f.lines)
        (label.below (String.ofList root.key)) := by
    unfold collectNodeTypes
    rw [htext]
    dsimp only
    rw [f.labels_lines, List.filterMap_map]
    rfl
  rw [hcollect, map_some_filterMap]
  · refine List.map_congr_left ?_
    rintro ⟨root, label⟩ hmem
    obtain ⟨id, hid, hreference⟩ := reference?_below hmem file
    simp only [hid, hreference, Option.map_some]
  · rintro ⟨root, label⟩ hmem
    obtain ⟨id, -, hreference⟩ := reference?_below hmem file
    simp only [hreference, Option.isSome_some]

end References

/-! ## Node types of one mapping -/

def labelKey : Word := ⟨"label".toList, by decide, List.all_eq_true.1 (by decide)⟩

def marker : Scalar := ⟨" i18n".toList, by decide, by decide⟩

/-- A label in quotes below two keys, after a comment, a blank line and another label. -/
def pageForest : Forest where
  leading := [⟨"# types".toList, .inr ⟨[], " types".toList, by decide, by decide⟩⟩]
  roots :=
    [{ package := "Acme.Site".toList
       name := "Page".toList
       quote := '\''
       blanks := ⟨[], allBlank_nil⟩
       step := 1
       body :=
         .leaf labelKey marker <|
         .skip ⟨[], .inl allBlank_nil⟩ <|
         .block ⟨"properties".toList, by decide, List.all_eq_true.1 (by decide)⟩
           ⟨[], allBlank_nil⟩ 0
           (.block ⟨"title".toList, by decide, List.all_eq_true.1 (by decide)⟩ ⟨[' '], by decide⟩ 2
             (.leaf labelKey ⟨" 'i18n'".toList, by decide, by decide⟩ .done) .done) .done
       isQuote := .inr rfl
       notBlank := by decide
       plain := by simp }]
  distinct := by decide

def pageContext : String :=
  "'Acme.Site:Page':\n  label: i18n\n\n  properties:\n   title: \n      label: 'i18n'"

def pageText : String := "# types\n" ++ pageContext ++ "\n"

/-- The references of two labels of one node type. -/
theorem collectNodeTypes_page :
    (collectNodeTypes "Page.yaml" pageText).map some =
      [("label", 3), ("properties.title", 7)].map fun (id, line) =>
        some
          { key := ⟨"Acme.Site", "NodeTypes", id⟩
            file := "Page.yaml"
            line
            format := .yaml
            schemaContext := some pageContext } := by
  have htext : Text.lines pageText.toList = pageForest.lines := by decide
  rw [collectNodeTypes_forest htext]
  decide

/-- A node type of one label. -/
def labelForest (package : List Char) (value : Scalar) (hblank : allBlank package = false)
    (hplain : ∀ c ∈ package ++ ['B'], c ≠ '"' ∧ c ≠ '\'' ∧ c ≠ ':') : Forest where
  leading := []
  roots :=
    [{ package
       name := ['B']
       quote := '"'
       blanks := ⟨[], allBlank_nil⟩
       step := 1
       body := .leaf labelKey value .done
       isQuote := .inl rfl
       notBlank := hblank
       plain := hplain }]
  distinct := by simp

def blankForest : Forest := labelForest " A".toList marker (by decide) (by simp)

def quoteForest : Forest :=
  labelForest "A".toList ⟨" i18n'".toList, by decide, by decide⟩ (by decide) (by simp)

/-- A package loses the blanks around it, and a value that ends in a quote is a mark too. -/
theorem collectNodeTypes_outer :
    Text.lines "\" A:B\":\n  label: i18n\n".toList = blankForest.lines ∧
      (collectNodeTypes "Page.yaml" "\" A:B\":\n  label: i18n\n").map
        (fun r => (r.key.package, r.key.id)) = [("A", "label")] ∧
      Text.lines "\"A:B\":\n  label: i18n'\n".toList = quoteForest.lines ∧
      (collectNodeTypes "Page.yaml" "\"A:B\":\n  label: i18n'\n").map
        (fun r => (r.key.package, r.key.id)) = [("A", "label")] := by
  refine ⟨?_, ?_, ?_, ?_⟩ <;> decide

end TranslationAudit.NodeType
