import TranslationAudit.Proofs.Markup.Canonical

/-! # Trees that were read

* `Node.Tidy`: what reading makes sure of. Attributes of an element differ in name, no two texts
  stand next to each other, and comments are not ended early.
* `parse_tidy`: every tree that was read is tidy.
* `Node.Named`: names are names, which reading does not check.
* `Node.Tidy.block`: the block of a tidy node with names can be written and read back.
-/

namespace TranslationAudit.Markup

namespace Node

/-- Nodes that are not two texts. -/
def Apart (m n : Node) : Prop := m.isText = false ∨ n.isText = false

/-- What reading makes sure of. -/
inductive Tidy : Node → Prop where
  | text (s : String) : Tidy (.text s)
  | comment {s : String} : IsComment s → Tidy (.comment s)
  | element {name : String} {attributes : List (String × String)} {children : List Node} :
      (attributes.map Prod.fst).Nodup → (∀ n ∈ children, Tidy n) → children.IsChain Apart →
        Tidy (.element name attributes children)

/-- Nodes whose elements and attributes have names. -/
inductive Named : Node → Prop where
  | text (s : String) : Named (.text s)
  | comment (s : String) : Named (.comment s)
  | element {name : String} {attributes : List (String × String)} {children : List Node} :
      isName name = true → (∀ a ∈ attributes, isName a.1 = true) → (∀ n ∈ children, Named n) →
        Named (.element name attributes children)

mutual

def isNamed : Node → Bool
  | .text _ => true
  | .comment _ => true
  | .element name attributes children =>
    isName name && attributes.all (fun a => isName a.1) && allNamed children

def allNamed : List Node → Bool
  | [] => true
  | n :: rest => n.isNamed && allNamed rest

end

mutual

theorem isNamed_iff (n : Node) : n.isNamed = true ↔ n.Named := by
  cases n with
  | text s => exact ⟨fun _ => .text s, fun _ => rfl⟩
  | comment s => exact ⟨fun _ => .comment s, fun _ => rfl⟩
  | element name attributes children =>
    have hchildren := allNamed_iff children
    rw [isNamed, Bool.and_eq_true, Bool.and_eq_true, List.all_eq_true, hchildren]
    constructor
    · rintro ⟨⟨hname, hattributes⟩, hall⟩
      exact .element hname hattributes hall
    · rintro (_ | _ | ⟨hname, hattributes, hall⟩)
      exact ⟨⟨hname, hattributes⟩, hall⟩

theorem allNamed_iff (ns : List Node) : allNamed ns = true ↔ ∀ n ∈ ns, n.Named := by
  cases ns with
  | nil => simp [allNamed]
  | cons n ns =>
    rw [allNamed, Bool.and_eq_true, isNamed_iff n, allNamed_iff ns, List.forall_mem_cons]

end

instance (n : Node) : Decidable n.Named := decidable_of_iff _ (isNamed_iff n)

/-! ## Texts stand apart -/

theorem tidy_appendText {ns : List Node} (h : ∀ n ∈ ns, n.Tidy) (s : String) :
    ∀ n ∈ appendText ns s, n.Tidy := by
  intro n hn
  rcases List.eq_nil_or_concat ns with rfl | ⟨front, last, rfl⟩
  · rw [appendText_nil, List.mem_singleton] at hn
    exact hn ▸ .text s
  · have hfront : ∀ m ∈ front, m.Tidy := fun m hm => h m (by simp [hm])
    have hlast : last.Tidy := h last (by simp)
    rw [List.concat_eq_append] at hn
    cases last with
    | text t =>
      rw [appendText_text, List.mem_append, List.mem_singleton] at hn
      rcases hn with hn | rfl
      · exact hfront n hn
      · exact .text _
    | comment c =>
      rw [appendText_comment, List.mem_append, List.mem_pair] at hn
      rcases hn with hn | rfl | rfl
      · exact hfront n hn
      · exact hlast
      · exact .text s
    | element name attributes children =>
      rw [appendText_element, List.mem_append, List.mem_pair] at hn
      rcases hn with hn | rfl | rfl
      · exact hfront n hn
      · exact hlast
      · exact .text s

theorem isChain_concat {ns : List Node} (h : ns.IsChain Apart) {n : Node}
    (hn : n.isText = false) : (ns ++ [n]).IsChain Apart := by
  rw [List.isChain_append]
  exact ⟨h, List.isChain_singleton n, fun _ _ m hm => .inr (by simp_all)⟩

theorem isChain_appendText {ns : List Node} (h : ns.IsChain Apart) (s : String) :
    (appendText ns s).IsChain Apart := by
  rcases List.eq_nil_or_concat ns with rfl | ⟨front, last, rfl⟩
  · exact List.isChain_singleton _
  · rw [List.concat_eq_append] at h ⊢
    have behind (hlast : last.isText = false) : (front ++ [last, .text s]).IsChain Apart := by
      have hboth : (front ++ [last]) ++ [.text s] = front ++ [last, .text s] := by simp
      rw [← hboth, List.isChain_append]
      exact ⟨h, List.isChain_singleton _, fun m hm _ _ => .inl (by simp_all)⟩
    cases last with
    | text t =>
      rw [appendText_text]
      rw [List.isChain_append] at h ⊢
      refine ⟨h.1, List.isChain_singleton _, ?_⟩
      intro m hm n hn
      have happart := h.2.2 m hm (.text t) (by simp)
      cases hn
      exact happart
    | comment c =>
      rw [appendText_comment]
      exact behind rfl
    | element name attributes children =>
      rw [appendText_element]
      exact behind rfl

end Node

/-! ## What reading makes sure of -/

/-- A building whose elements are tidy as far as they have been read. -/
structure Building.Tidy (b : Building) : Prop where
  opened : ∀ e ∈ b.opened, e.toNode.Tidy
  root : ∀ e ∈ b.root, e.toNode.Tidy

namespace Building

theorem Tidy.attach {b b' : Building} (h : b.Tidy) {e : Element} (he : e.toNode.Tidy)
    (hadd : b.attach e = .ok b') : b'.Tidy := by
  obtain ⟨opened, root⟩ := b
  cases opened with
  | nil =>
    cases root with
    | none =>
      cases hadd
      exact ⟨by simp, fun r hr => by cases hr; exact he⟩
    | some r => cases hadd
  | cons parent outer =>
    cases hadd
    refine ⟨?_, h.root⟩
    intro f hf
    rcases List.mem_cons.1 hf with rfl | hf
    · obtain _ | _ | ⟨hnames, hchildren, hchain⟩ := h.opened parent List.mem_cons_self
      refine .element hnames ?_ (Node.isChain_concat hchain rfl)
      intro n hn
      rcases List.mem_append.1 hn with hn | hn
      · exact hchildren n hn
      · exact List.mem_singleton.1 hn ▸ he
    · exact h.opened f (List.mem_cons_of_mem parent hf)

theorem Tidy.within {b : Building} (h : b.Tidy) {f : List Node → List Node}
    (htidy : ∀ ns, (∀ n ∈ ns, n.Tidy) → ∀ n ∈ f ns, n.Tidy)
    (hchain : ∀ ns, ns.IsChain Node.Apart → (f ns).IsChain Node.Apart) : (b.within f).Tidy := by
  obtain ⟨opened, root⟩ := b
  cases opened with
  | nil => exact h
  | cons parent outer =>
    refine ⟨?_, h.root⟩
    intro e he
    rcases List.mem_cons.1 he with rfl | he
    · obtain _ | _ | ⟨hnames, hchildren, hapart⟩ := h.opened parent List.mem_cons_self
      exact .element hnames (htidy _ hchildren) (hchain _ hapart)
    · exact h.opened e (List.mem_cons_of_mem parent he)

/-- Pieces keep a building tidy, as long as comments are such that they can be read. -/
theorem Tidy.add {b b' : Building} (h : b.Tidy) {p : Piece}
    (hp : ∀ c, p = .comment c → IsComment (String.ofList c)) (hadd : b.add 0 p = .ok b') :
    b'.Tidy := by
  have joined (s : String) : (b.within (appendText · s)).Tidy :=
    h.within (fun _ hns => Node.tidy_appendText hns s) (fun _ hns => Node.isChain_appendText hns s)
  -- texts and character data join the text before them; every other piece closes it
  cases p with
  | text raw =>
    simp only [Building.add] at hadd
    split at hadd
    · cases hadd
    · split at hadd
      · cases hadd
      · cases hadd
        exact joined _
  | opening content =>
    simp only [Building.add] at hadd
    split at hadd
    · cases hadd
    · next name attributes htag =>
      split at hadd
      · cases hadd
      · cases hadd
        refine ⟨?_, h.root⟩
        intro e he
        rcases List.mem_cons.1 he with rfl | he
        · exact .element (nodup_of_readTag htag) (by simp) List.IsChain.nil
        · exact h.opened e he
  | empty content =>
    simp only [Building.add] at hadd
    split at hadd
    · cases hadd
    · next name attributes htag =>
      exact h.attach (.element (nodup_of_readTag htag) (by simp) List.IsChain.nil) hadd
  | closing name =>
    obtain ⟨opened, root⟩ := b
    cases opened with
    | nil => cases hadd
    | cons e outer =>
      simp only [Building.add] at hadd
      split at hadd
      · have houter : Building.Tidy ⟨outer, root⟩ :=
          ⟨fun f hf => h.opened f (List.mem_cons_of_mem e hf), h.root⟩
        exact houter.attach (h.opened e List.mem_cons_self) hadd
      · cases hadd
  | comment c =>
    cases hadd
    refine h.within ?_ (fun _ hns => Node.isChain_concat hns rfl)
    intro ns hns n hn
    rcases List.mem_append.1 hn with hn | hn
    · exact hns n hn
    · rw [List.mem_singleton.1 hn]
      exact .comment (hp c rfl)
  | characterData content =>
    cases hadd
    exact joined _
  | ignored =>
    cases hadd
    exact h

end Building

theorem isComment_of_cutPiece {s c rest : List Char} (h : cutPiece s = .ok (.comment c, rest)) :
    IsComment (String.ofList c) := by
  unfold cutPiece at h
  split at h
  · next r =>
    unfold cutMarkup at h
    split at h
    · next r =>
      unfold cutDeclaration at h
      split at h
      · next r =>
        split at h
        · next content rest hcut =>
          cases h
          have hself : cutAtText? "-->".toList (c ++ "-->".toList) = some (c, []) :=
            cutAtText?_self hcut
          have hc : (String.ofList c).toList = c := String.toList_ofList
          rw [IsComment, hc]
          exact hself
        · cases h
      all_goals repeat' split at h
      all_goals cases h
    all_goals repeat' split at h
    all_goals cases h
  · cases h

theorem Building.Tidy.readInto {b b' : Building} (h : b.Tidy) {s : List Char}
    (hread : readInto b s = some b') : b'.Tidy := by
  fun_induction Markup.readInto b s with
  | case1 =>
    cases hread
    exact h
  | case2 => cases hread
  | case3 => cases hread
  | case4 b c r piece rest hcut hshorter b₁ hadd ih =>
    exact ih (h.add (fun _ hc => isComment_of_cutPiece (hc ▸ hcut)) hadd) hread
  | case5 b c r piece rest hcut hshorter =>
    cases hadd : b.add 0 piece with
    | error e => simp [hadd, Except.toOption] at hread
    | ok b₁ =>
      simp only [hadd, Except.toOption, Option.some.injEq] at hread
      exact hread ▸ h.add (fun _ hc => isComment_of_cutPiece (hc ▸ hcut)) hadd

/-- Every tree that was read is tidy. -/
theorem parse_tidy {s : String} {root : Element} (h : parse s = .ok root) : root.toNode.Tidy := by
  obtain ⟨b, hread, hfinish⟩ := (parse_eq_ok_iff s root).1 h
  have hempty : Building.Tidy {} := ⟨by simp, by simp⟩
  have hb := hempty.readInto hread
  obtain ⟨opened, found⟩ := b
  cases opened with
  | nil =>
    cases found with
    | none => cases hfinish
    | some r =>
      cases hfinish
      exact hb.root root rfl
  | cons e outer => cases hfinish

/-! ## Blocks of trees -/

namespace Node

theorem isText_of_mem_blocks {n : Node} {b : Block} (h : b ∈ n.blocks) :
    b.isText = n.isText := by
  cases n with
  | text s =>
    rw [blocks, textBlocks] at h
    split at h
    · cases h
    · rw [List.mem_singleton.1 h]
      rfl
  | comment s =>
    rw [blocks, List.mem_singleton] at h
    rw [h]
    rfl
  | element name attributes children =>
    rw [blocks, List.mem_singleton] at h
    rw [h, Block.ofParts.eq_def]
    split <;> rfl

/-- Where texts stand apart, so do the blocks. A blank text that is left out stands between nodes
that are none. -/
theorem isChain_blocksAll {ns : List Node} (h : ns.IsChain Apart) :
    (blocksAll ns).IsChain Block.Apart ∧
      ∀ b ∈ (blocksAll ns).head?, b.isText = true → ∃ s rest, ns = .text s :: rest := by
  induction ns with
  | nil => exact ⟨List.IsChain.nil, by simp [blocksAll]⟩
  | cons n ns ih =>
    obtain ⟨hrest, hhead⟩ := ih h.tail
    rw [blocksAll]
    -- a blank text is no block, and what follows it is no text
    cases hn : n.isBlankText with
    | true =>
      rw [blocks_of_isBlankText hn, List.nil_append]
      refine ⟨hrest, ?_⟩
      intro b hb htext
      obtain ⟨s, rest, rfl⟩ := hhead b hb htext
      cases n with
      | text t => exact ⟨t, _, rfl⟩
      | _ => simp [isBlankText] at hn
    | false =>
      obtain ⟨b, hb, -⟩ := blocks_of_visible hn
      have hsame : b.isText = n.isText := isText_of_mem_blocks (by simp [hb])
      rw [hb, List.singleton_append]
      refine ⟨?_, ?_⟩
      · rw [List.isChain_cons]
        refine ⟨?_, hrest⟩
        intro c hc
        cases hctext : c.isText with
        | false => exact .inr hctext
        | true =>
          obtain ⟨s, rest, rfl⟩ := hhead c hc hctext
          rcases (List.isChain_cons_cons.1 h).1 with hapart | hapart
          · exact .inl (hsame.trans hapart)
          · cases hapart
      · intro c hc htext
        have hcb : b = c := by simpa using hc
        rw [← hcb, hsame] at htext
        cases n with
        | text s => exact ⟨s, ns, rfl⟩
        | _ => cases htext

end Node

namespace Block

variable {name : String} {attributes : List (String × String)} {parts : List Block}

theorem Sound.ofParts (hname : isName name = true) (hattributes : AttributesNamed attributes)
    (h : ∀ b ∈ parts, b.Sound) : (Block.ofParts name attributes parts).Sound := by
  rw [Block.ofParts.eq_def]
  split
  · exact .empty hname hattributes
  · exact .inline _ hname hattributes
  · exact .nested hname hattributes h

theorem Canonical.ofParts (hsorted : Text.sortNatural Prod.fst attributes = attributes)
    (h : ∀ b ∈ parts, b.Canonical) (apart : parts.IsChain Apart) :
    (Block.ofParts name attributes parts).Canonical := by
  rw [Block.ofParts.eq_def]
  split
  · exact .empty hsorted
  · next s =>
    cases h (.text s) List.mem_cons_self with
    | text hs => exact .inline hsorted hs
  · next hempty hone =>
    refine .nested hsorted h apart ?_
    rw [Block.ofParts]
    · exact hempty
    · exact hone

end Block

theorem Block.Sound.named_node {b : Block} (h : b.Sound) (tab : Nat) :
    ∀ level, (b.node tab level).Named := by
  induction h with
  | text s => exact fun _ => .text s
  | comment _ => exact fun _ => .comment _
  | empty hname hattributes => exact fun _ => .element hname hattributes.names (by simp)
  | inline s hname hattributes =>
    intro level
    refine .element hname hattributes.names ?_
    intro n hn
    split at hn
    · cases hn
    · rw [List.mem_singleton.1 hn]
      exact .text s
  | @nested name attributes parts hname hattributes _ ih =>
    intro level
    rw [Block.node_nested]
    refine .element hname hattributes.names ?_
    intro n hn
    rcases Block.mem_contents hn with ⟨s, rfl⟩ | ⟨b, hb, rfl⟩
    · exact .text s
    · exact ih b hb (level + 1)

namespace Node

/-- The block of a tidy node with names can be written and read back. -/
theorem Tidy.block {n : Node} (h : n.Tidy) (hnamed : n.Named) :
    ∀ b ∈ n.blocks, b.Sound ∧ b.Canonical := by
  induction h with
  | text s =>
    intro b hb
    rw [blocks] at hb
    have hs := textBlocks_trimmed s
    rw [textBlocks] at hb
    split at hb
    · cases hb
    · next hblank =>
      rw [List.mem_singleton.1 hb]
      refine ⟨.text _, .text ?_⟩
      rw [hs, textBlocks, if_neg hblank]
  | @comment s hs =>
    intro b hb
    rw [blocks, List.mem_singleton] at hb
    rw [hb]
    exact ⟨.comment hs, .comment s⟩
  | @element name attributes children hnodup hchildren hchain ih =>
    intro b hb
    rw [blocks, List.mem_singleton] at hb
    obtain _ | _ | ⟨hname, hattributes, hnamedChildren⟩ := hnamed
    have hsorted : AttributesNamed (Text.sortNatural Prod.fst attributes) :=
      AttributesNamed.of_perm ⟨hattributes, hnodup⟩ (Text.sortNatural_perm Prod.fst attributes).symm
    have hfixed := Text.sortNatural_sortNatural Prod.fst attributes
    have hparts : ∀ c ∈ blocksAll children, c.Sound ∧ c.Canonical := by
      intro c hc
      rw [blocksAll_eq_flatMap, List.mem_flatMap] at hc
      obtain ⟨m, hm, hc⟩ := hc
      exact ih m hm (hnamedChildren m hm) c hc
    have hapart := (isChain_blocksAll hchain).1
    rw [hb]
    exact ⟨.ofParts hname hsorted fun c hc => (hparts c hc).1,
      .ofParts hfixed (fun c hc => (hparts c hc).2) hapart⟩

/-! ## Nodes written and read -/

/-- The node that the lines of a node are read as. -/
def reread (tab level : Nat) (n : Node) : Node :=
  match n.blocks with
  | [] => n
  | b :: _ => b.node tab level

/-- A node that is no text has one block, which is read as the node that stands for it. -/
theorem exists_block {n : Node} (h : n.isText = false) (tab level : Nat) :
    ∃ b, n.blocks = [b] ∧ b.node tab level = n.reread tab level ∧ b.isText = false := by
  have hvisible : n.isBlankText = false := by
    cases n with
    | text s => cases h
    | _ => rfl
  obtain ⟨b, hb, -⟩ := blocks_of_visible hvisible
  refine ⟨b, hb, by rw [reread, hb], ?_⟩
  rw [isText_of_mem_blocks (n := n) (by simp [hb]), h]

theorem Tidy.blocks_reread {n : Node} (h : n.Tidy) (hnamed : n.Named) (tab level : Nat) :
    (n.reread tab level).blocks = n.blocks := by
  have hblocks := h.block hnamed
  have hcases : n.blocks = [] ∨ ∃ b, n.blocks = [b] := by
    cases hblank : n.isBlankText with
    | true => exact .inl (blocks_of_isBlankText hblank)
    | false =>
      obtain ⟨b, hb, -⟩ := blocks_of_visible hblank
      exact .inr ⟨b, hb⟩
  rcases hcases with hb | ⟨b, hb⟩
  · rw [reread, hb]
    exact hb
  · rw [reread, hb]
    exact (hblocks b (by simp [hb])).2.blocks_node tab level

theorem reread_comment (tab level : Nat) (s : String) :
    (Node.comment s).reread tab level = .comment s := by
  rw [reread, blocks]
  rfl

theorem reread_element (tab level : Nat) (name : String) (attributes : List (String × String))
    (children : List Node) :
    ∃ children', (Node.element name attributes children).reread tab level =
      .element name (Text.sortNatural Prod.fst attributes) children' := by
  rw [reread, blocks]
  simp only [Block.ofParts.eq_def]
  split
  · exact ⟨[], by rw [Block.node]⟩
  · exact ⟨_, by rw [Block.node]⟩
  · exact ⟨_, Block.node_nested ..⟩

theorem isText_reread {n : Node} (h : n.isText = false) (tab level : Nat) :
    (n.reread tab level).isText = false := by
  cases n with
  | text s => cases h
  | comment s => rw [reread_comment]; rfl
  | element name attributes children =>
    obtain ⟨children', hread⟩ := reread_element tab level name attributes children
    rw [hread]
    rfl

end Node

/-! ## Attributes in another order -/

theorem lookup_eq_some_iff {as : List (String × String)} (h : (as.map Prod.fst).Nodup)
    {name value : String} : as.lookup name = some value ↔ (name, value) ∈ as := by
  induction as with
  | nil => simp
  | cons a as ih =>
    rw [List.map_cons, List.nodup_cons] at h
    obtain ⟨k, v⟩ := a
    by_cases hk : name = k
    · subst hk
      have hnone : (name, value) ∉ as := by
        intro hm
        exact h.1 (List.mem_map.2 ⟨(name, value), hm, rfl⟩)
      simp [hnone, eq_comm]
    · have hbeq : (name == k) = false := by simpa using hk
      simp [List.lookup_cons, hbeq, ih h.2, hk]

theorem lookup_sortNatural {as : List (String × String)} (h : (as.map Prod.fst).Nodup)
    (name : String) : (Text.sortNatural Prod.fst as).lookup name = as.lookup name := by
  have hperm := Text.sortNatural_perm Prod.fst as
  have hsorted : ((Text.sortNatural Prod.fst as).map Prod.fst).Nodup :=
    (hperm.map Prod.fst).nodup_iff.2 h
  apply Option.ext
  intro value
  rw [lookup_eq_some_iff hsorted, lookup_eq_some_iff h, hperm.mem_iff]

end TranslationAudit.Markup
