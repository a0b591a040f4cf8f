import TranslationAudit.Proofs.Collect.NodeType.Blocks
import TranslationAudit.Proofs.Collect.Order

/-! # Comments behind lines

A comment on a line of its own is skipped. One behind a key or a value is read as a part of the
value, so that the line opens no block and marks no label.

* `NodeType.IsEntry`: the lines of keys. `NodeType.IsEntry.keyValue?_commented`,
  `NodeType.IsEntry.opens?_commented`, `NodeType.IsEntry.not_isMark_commented`: what such a line
  says, opens and marks with a comment behind it.
* `NodeType.bareReferences_commented`: what a comment takes away: the label that the line marks, and
  the key of the block that it opens.
* `NodeType.bareReferences_commented_iff`: when a comment changes no reference.
-/

namespace TranslationAudit

namespace NodeType

open Text

variable {c d : Char} {s line blanks comment : List Char} {front rest : List (List Char)}

/-! ## Longer lines -/

section Longer

variable (hd : isBlank d = true)

include hd

theorem ne_of_isBlank (hc : isBlank c = false) : d ≠ c := by
  rintro rfl
  rw [hd] at hc
  cases hc

theorem startsValue_append (s r : List Char) : startsValue (s ++ d :: r) = startsValue s := by
  cases s with
  | nil => exact hd
  | cons c s => rfl

theorem cutKeyTail?_append (afterColon : Bool) (s r : List Char) :
    cutKeyTail? afterColon (s ++ d :: r) =
      (cutKeyTail? afterColon s).map fun (a, b) => (a, b ++ d :: r) := by
  induction s generalizing afterColon with
  | nil =>
    have hcolon : d ≠ ':' := ne_of_isBlank hd (by decide)
    simp [cutKeyTail?, hcolon, hd]
  | cons c s ih =>
    rw [List.cons_append, cutKeyTail?, cutKeyTail?, startsValue_append hd, ih, ih]
    split_ifs <;> simp [Function.comp_def]

theorem cutPlainKey?_append (h : ':' ∈ s) (r : List Char) :
    cutPlainKey? (s ++ d :: r) = (cutPlainKey? s).map fun (a, b) => (a, b ++ d :: r) := by
  obtain ⟨a, t, rfl, ha⟩ := List.eq_append_cons_of_mem h
  have hplain : ∀ c ∈ a, decide (c ≠ ':') = true := fun c hc =>
    decide_eq_true fun heq => ha (heq ▸ hc)
  have hread (t : List Char) : cutPlainKey? (a ++ ':' :: t) =
      if a.isEmpty then none else (cutKeyTail? false (':' :: t)).map fun (x, y) => (a ++ x, y) := by
    have hhead : (a ++ ':' :: t).takeWhile (· ≠ ':') = a :=
      takeWhile_append_cons hplain (by decide) t
    rw [cutPlainKey?]
    simp only [hhead, List.drop_left]
  rw [List.append_assoc, List.cons_append, hread, hread, ← List.cons_append, cutKeyTail?_append hd]
  split <;> simp [Function.comp_def]

theorem cutQuotedKey?_append (h : ∀ q ∈ s.head?, IsQuote q → q ∈ s.tail) (r : List Char) :
    cutQuotedKey? (s ++ d :: r) = (cutQuotedKey? s).map fun (a, b) => (a, b ++ d :: r) := by
  cases s with
  | nil =>
    have hquote : ¬(d = '"' ∨ d = '\'') :=
      not_or.2 ⟨ne_of_isBlank hd (by decide), ne_of_isBlank hd (by decide)⟩
    rw [List.nil_append, cutQuotedKey?, if_neg hquote]
    rfl
  | cons q t =>
    rw [List.cons_append, cutQuotedKey?, cutQuotedKey?]
    split
    · next hq =>
      obtain ⟨a, t, rfl, ha⟩ := List.eq_append_cons_of_mem (h q rfl hq)
      rw [List.append_assoc, List.cons_append, cutAt?_append ha, cutAt?_append ha]
      cases a with
      | nil => rfl
      | cons c key =>
        cases t with
        | nil =>
          have hcolon : d ≠ ':' := ne_of_isBlank hd (by decide)
          simp [hcolon]
        | cons e t =>
          by_cases he : e = ':'
          · subst he
            simp only [List.cons_append, startsValue_append hd]
            split <;> rfl
          · simp [he]
    · rfl

theorem splitKeyLine?_append (hcolon : ':' ∈ s) (hclosed : ∀ q ∈ s.head?, IsQuote q → q ∈ s.tail)
    (r : List Char) :
    splitKeyLine? (s ++ d :: r) = ((cutQuotedKey? s).or (cutPlainKey? s)).map fun (key, value) =>
      (String.ofList (normalizeKey key), trim (value ++ d :: r)) := by
  rw [splitKeyLine?, cutQuotedKey?_append hd hclosed, cutPlainKey?_append hd hcolon]
  cases cutQuotedKey? s <;> cases cutPlainKey? s <;> rfl

end Longer

/-! ## Lines of keys -/

/-- The line of a key: it has a colon, and if it begins with a quote this quote is closed. -/
structure IsEntry (line : List Char) : Prop where
  notSkipped : isSkipped (trim line) = false
  colon : ':' ∈ trim line
  closed : ∀ q ∈ (trim line).head?, IsQuote q → q ∈ (trim line).tail

instance (q : Char) : Decidable (IsQuote q) := inferInstanceAs (Decidable (q = '"' ∨ q = '\''))

-- `all` instead of the quantifier, for which all characters might be gone through
instance (line : List Char) : Decidable (IsEntry line) :=
  decidable_of_iff (isSkipped (trim line) = false ∧ ':' ∈ trim line ∧
      (trim line).head?.all (fun q => decide (IsQuote q → q ∈ (trim line).tail)) = true)
    ⟨fun ⟨hskipped, hcolon, hclosed⟩ =>
      ⟨hskipped, hcolon, fun _ hq => of_decide_eq_true ((Option.all_eq_true _ _).1 hclosed _ hq)⟩,
    fun h => ⟨h.notSkipped, h.colon, (Option.all_eq_true _ _).2 fun _ hq =>
      decide_eq_true (h.closed _ hq)⟩⟩

/-- A line with a comment behind it. -/
def commented (line blanks comment : List Char) : List Char := line ++ blanks ++ '#' :: comment

namespace IsEntry

theorem exists_trim (h : IsEntry line) : ∃ c t, trim line = c :: t ∧ c ≠ '#' := by
  have hskipped := h.notSkipped
  cases htrim : trim line with
  | nil =>
    rw [htrim] at hskipped
    cases hskipped
  | cons c t =>
    rw [htrim] at hskipped
    exact ⟨c, t, rfl, by simpa [isSkipped] using hskipped⟩

/-- Trimming keeps the blanks before a comment and the comment itself. -/
theorem exists_trim_commented (h : IsEntry line) (hne : blanks ≠ [])
    (hblank : allBlank blanks = true) (comment : List Char) :
    ∃ d b t, isBlank d = true ∧
      trim (commented line blanks comment) = trim line ++ d :: (b ++ '#' :: t) := by
  obtain ⟨u, v, hu, hv, hline⟩ := exists_blanks line
  obtain ⟨c, s, htrim, -⟩ := h.exists_trim
  obtain ⟨d, b, hgap⟩ : ∃ d b, v ++ blanks = d :: b :=
    List.exists_cons_of_ne_nil (List.append_ne_nil_of_right_ne_nil v hne)
  have hd : isBlank d = true := by
    have hall : allBlank (v ++ blanks) = true := by rw [allBlank_append, hv, hblank]; rfl
    rw [hgap, allBlank, List.all_cons, Bool.and_eq_true] at hall
    exact hall.1
  have hhead : ∀ x, (trim line ++ (v ++ blanks)).head? = some x → isBlank x = false := by
    intro x hx
    rw [htrim, List.cons_append, List.head?_cons] at hx
    refine of_head?_stripWhile (p := isBlank) (s := line) ?_
    rw [← trim, htrim, List.head?_cons, hx]
  have hlast : ∀ x, (trimEnd comment).getLast? = some x → isBlank x = false :=
    fun x => of_getLast?_dropEndWhile
  have hwhole : commented line blanks comment =
      u ++ ((trim line ++ (v ++ blanks)) ++ '#' :: trimEnd comment ++
        comment.rtakeWhile isBlank) := by
    rw [List.append_assoc (trim line ++ _), List.cons_append, trimEnd_append_rtakeWhile, commented]
    nth_rewrite 1 [hline]
    simp only [List.append_assoc]
  refine ⟨d, b, trimEnd comment, hd, ?_⟩
  rw [hwhole, trim_blank_append hu, trim_append_blank (allBlank_rtakeWhile comment),
    trim_eq_of_ends hhead hlast (by decide), hgap,
    List.append_assoc, List.cons_append]

theorem indentOf_commented (h : IsEntry line) (blanks comment : List Char) :
    indentOf (commented line blanks comment) = indentOf line := by
  have hspaces : (line.takeWhile (· = ' ')).length ≠ line.length := by
    intro hlength
    have hall : ∀ c ∈ line, c = ' ' := by
      have hself := (List.takeWhile_prefix (l := line) (· = ' ')).eq_of_length hlength
      intro c hc
      rw [← hself] at hc
      exact of_decide_eq_true (List.all_eq_true.1 List.all_takeWhile c hc)
    have hblank : allBlank line = true := List.all_eq_true.2 fun c hc => by
      rw [hall c hc]
      rfl
    obtain ⟨c, t, htrim, -⟩ := h.exists_trim
    rw [← List.append_nil line, trim_blank_append hblank] at htrim
    cases htrim
  rw [indentOf, indentOf, commented, List.append_assoc, List.takeWhile_append, if_neg hspaces]

/-- A comment is a part of the value of its line. -/
theorem keyValue?_commented (h : IsEntry line) (hne : blanks ≠ []) (hblank : allBlank blanks = true)
    (comment : List Char) :
    isSkipped (trim (commented line blanks comment)) = false ∧
      ∀ entry ∈ keyValue? (commented line blanks comment), '#' ∈ entry.2 := by
  obtain ⟨d, b, t, hd, htrim⟩ := h.exists_trim_commented hne hblank comment
  obtain ⟨c, s, hline, hc⟩ := h.exists_trim
  have hskipped : isSkipped (trim (commented line blanks comment)) = false := by
    rw [htrim, hline]
    simpa [isSkipped] using hc
  refine ⟨hskipped, ?_⟩
  rw [keyValue?, hskipped, htrim, splitKeyLine?_append hd h.colon h.closed]
  intro entry hentry
  obtain ⟨⟨key, value⟩, -, rfl⟩ := Option.map_eq_some_iff.1 hentry
  exact mem_stripWhile (by simp) (by decide)

theorem opens?_commented (h : IsEntry line) (hne : blanks ≠ []) (hblank : allBlank blanks = true)
    (comment : List Char) : opens? (commented line blanks comment) = none := by
  rw [opens?, Option.bind_eq_none_iff]
  rintro ⟨key, value⟩ hentry
  have hmem := (h.keyValue?_commented hne hblank comment).2 _ hentry
  exact if_neg fun hempty => List.ne_nil_of_mem hmem (List.isEmpty_iff.1 hempty)

theorem not_isMark_commented (h : IsEntry line) (hne : blanks ≠ [])
    (hblank : allBlank blanks = true) (comment : List Char) :
    ¬IsMark (commented line blanks comment) := by
  rintro ⟨entry, hentry, hmark⟩
  have hmem := (h.keyValue?_commented hne hblank comment).2 entry hentry
  rw [isMarker, Bool.and_eq_true, decide_eq_true_eq, decide_eq_true_eq] at hmark
  have hstripped := hmark.2 ▸ mem_stripWhile hmem (by decide)
  exact absurd hstripped (by decide)

end IsEntry

/-! ## References without their blocks -/

/-- A reference without the block of the node type around it. -/
def withoutContext (r : Reference) : Reference := { r with schemaContext := none }

/-- The references of a file, without the blocks around them. -/
def bareReferences (file text : String) : List Reference :=
  (collectNodeTypes file text).map withoutContext

/-- The reference of a label, without the block around it. -/
def bareReference? (file : String) (label : Label) : Option Reference :=
  reference? file (sourceOf file) .empty label

theorem map_withoutContext_reference? (file source : String) (contexts : Dict String String)
    (label : Label) :
    (reference? file source contexts label).map withoutContext =
      reference? file source .empty label := by
  unfold reference?
  split
  · rfl
  · split
    · rfl
    · split
      · rfl
      · rw [Option.map_map]
        rfl

theorem bareReferences_eq (file text : String) :
    bareReferences file text =
      (labels 1 [] (Text.lines text.toList)).filterMap (bareReference? file) := by
  rw [bareReferences, collectNodeTypes, List.map_filterMap]
  exact List.filterMap_congr fun label _ => map_withoutContext_reference? _ _ _ label

/-! ## Comments -/

section Comments

variable {file text text' : String}

/-- The references of a file, as seen from a line that is not skipped. -/
theorem bareReferences_line (hskipped : isSkipped (trim line) = false)
    (htext : Text.lines text.toList = front ++ line :: rest) :
    bareReferences file text =
      (labels 1 [] front).filterMap (bareReference? file) ++
        (((marked? (front.length + 1) (front.foldl openBlocks []) line).bind
            (bareReference? file)).toList ++
          ((labelsBelow front line rest).filterMap (fun label => bareReference? file
              (label.within (keysAround front line ++ (opens? line).toList))) ++
            (labelsBehind front line rest).filterMap (bareReference? file))) := by
  rw [bareReferences_eq, htext, labels_line hskipped]
  simp only [List.filterMap_append, List.filterMap_map]
  cases marked? (front.length + 1) (front.foldl openBlocks []) line with
  | none => rfl
  | some label =>
    simp only [Option.toList_some, Option.bind_some, List.filterMap_cons, List.filterMap_nil]
    cases bareReference? file label <;> rfl

/-- A comment takes away the label that its line marks, and the key of the block that its line
opens. -/
theorem bareReferences_commented (h : IsEntry line) (hne : blanks ≠ [])
    (hblank : allBlank blanks = true)
    (htext' : Text.lines text'.toList = front ++ commented line blanks comment :: rest) :
    bareReferences file text' =
      (labels 1 [] front).filterMap (bareReference? file) ++
        ((labelsBelow front line rest).filterMap (fun label => bareReference? file
            (label.within (keysAround front line))) ++
          (labelsBehind front line rest).filterMap (bareReference? file)) := by
  have hindent := h.indentOf_commented blanks comment
  have hkeys : keysAround front (commented line blanks comment) = keysAround front line := by
    rw [keysAround, keysAround, around, around, hindent]
  have hbelow : labelsBelow front (commented line blanks comment) rest =
      labelsBelow front line rest := by
    rw [labelsBelow, labelsBelow, hindent]
  have hbehind : labelsBehind front (commented line blanks comment) rest =
      labelsBehind front line rest := by
    rw [labelsBehind, labelsBehind, around, around, hindent]
  rw [bareReferences_line (h.keyValue?_commented hne hblank comment).1 htext', marked?,
    if_neg (h.not_isMark_commented hne hblank comment), h.opens?_commented hne hblank comment,
    hkeys, hbelow, hbehind]
  simp

/-- The references of labels in lines of their own tell the labels apart. -/
theorem filterMap_eq_iff {labels : List Label} (hlines : labels.Pairwise fun a b => a.line < b.line)
    {f g : Label → Option Reference} (hf : ∀ label r, f label = some r → r.line = label.line)
    (hg : ∀ label r, g label = some r → r.line = label.line) :
    labels.filterMap f = labels.filterMap g ↔ ∀ label ∈ labels, f label = g label := by
  refine ⟨fun heq => ?_, List.filterMap_congr⟩
  induction labels with
  | nil => simp
  | cons label labels ih =>
    rw [List.pairwise_cons] at hlines
    -- a reference that only one side has for the first label would be that of a later line
    have later {f : Label → Option Reference}
        (hf : ∀ label r, f label = some r → r.line = label.line) {r : Reference}
        (hr : r ∈ labels.filterMap f) : label.line < r.line := by
      obtain ⟨other, hother, hsome⟩ := List.mem_filterMap.1 hr
      rw [hf other r hsome]
      exact hlines.1 other hother
    rw [List.filterMap_cons, List.filterMap_cons] at heq
    cases hleft : f label with
    | none =>
      cases hright : g label with
      | none =>
        rw [hleft, hright] at heq
        exact List.forall_mem_cons.2 ⟨hleft.trans hright.symm, ih hlines.2 heq⟩
      | some r =>
        rw [hleft, hright] at heq
        dsimp only at heq
        have hlt : label.line < r.line := later hf (heq ▸ List.mem_cons_self)
        rw [hg label r hright] at hlt
        exact absurd hlt (Nat.lt_irrefl _)
    | some r =>
      cases hright : g label with
      | none =>
        rw [hleft, hright] at heq
        dsimp only at heq
        have hlt : label.line < r.line := later hg (heq ▸ List.mem_cons_self)
        rw [hf label r hleft] at hlt
        exact absurd hlt (Nat.lt_irrefl _)
      | some r' =>
        rw [hleft, hright] at heq
        obtain ⟨rfl, hrest⟩ := List.cons_eq_cons.1 heq
        exact List.forall_mem_cons.2 ⟨hleft.trans hright.symm, ih hlines.2 hrest⟩

theorem line_of_bareReference? {keys : List String} {label : Label} {r : Reference}
    (h : bareReference? file (label.within keys) = some r) : r.line = label.line :=
  (place_of_reference? h).2

/-- A line that marks a label opens no block. -/
theorem opens?_of_isMark (h : IsMark line) : opens? line = none := by
  obtain ⟨⟨key, value⟩, hentry, hmark⟩ := h
  have hvalue : value ≠ [] := by
    rintro rfl
    rw [isMarker_nil] at hmark
    cases hmark
  rw [opens?, Option.mem_def.1 hentry]
  exact if_neg (mt List.isEmpty_iff.1 hvalue)

/-- A comment changes no reference unless its line marks a label that has one, or opens a block with
a label below whose reference is another one without the key of the block. -/
theorem bareReferences_commented_iff (h : IsEntry line) (hne : blanks ≠ [])
    (hblank : allBlank blanks = true)
    (htext : Text.lines text.toList = front ++ line :: rest)
    (htext' : Text.lines text'.toList = front ++ commented line blanks comment :: rest) :
    bareReferences file text' = bareReferences file text ↔
      (IsMark line → bareReference? file ⟨front.length + 1, keysAround front line⟩ = none) ∧
      ∀ key ∈ opens? line, ∀ label ∈ labelsBelow front line rest,
        bareReference? file (label.within (keysAround front line)) =
          bareReference? file (label.within (keysAround front line ++ [key])) := by
  rw [bareReferences_commented h hne hblank htext', bareReferences_line h.notSkipped htext,
    List.append_cancel_left_eq, marked?]
  by_cases hmark : IsMark line
  · rw [if_pos hmark, opens?_of_isMark hmark, Option.toList_none, List.append_nil, Option.bind_some,
      List.self_eq_append_left]
    simp [hmark, keysAround]
  · rw [if_neg hmark, Option.bind_none, Option.toList_none, List.nil_append,
      List.append_cancel_right_eq]
    cases hopens : opens? line with
    | none => simp [hmark]
    | some key =>
      have hlines : (labelsBelow front line rest).Pairwise fun a b => a.line < b.line :=
        (pairwise_labels _ _ _).2
      rw [filterMap_eq_iff hlines (fun _ _ => line_of_bareReference?)
        (fun _ _ => line_of_bareReference?)]
      simp [hmark]

/-- A node type with two labels, the second below a property. -/
def cardLines : List String :=
  ["'Vendor.Site:Content.Card':", "  ui:", "    label: i18n", "  properties:", "    title:",
    "      ui:", "        label: i18n"]

/-- The label of a property has the identifier of the property, whatever stands between them, so
that a comment may stand there. One behind a mark takes the label away. -/
theorem bareReferences_commented_iff_card :
    let lines := cardLines.map String.toList
    let text := Text.unlines cardLines
    let below := Text.unlines (cardLines.set 5 "      ui:  # text")
    let mark := Text.unlines (cardLines.set 2 "    label: i18n  # text")
    IsEntry "      ui:".toList ∧ IsEntry "    label: i18n".toList ∧
      Text.lines text.toList = lines.take 5 ++ "      ui:".toList :: lines.drop 6 ∧
      Text.lines text.toList = lines.take 2 ++ "    label: i18n".toList :: lines.drop 3 ∧
      Text.lines below.toList =
        lines.take 5 ++ commented "      ui:".toList [' ', ' '] " text".toList :: lines.drop 6 ∧
      Text.lines mark.toList = lines.take 2 ++
        commented "    label: i18n".toList [' ', ' '] " text".toList :: lines.drop 3 ∧
      bareReferences "Card.yaml" below = bareReferences "Card.yaml" text ∧
      bareReferences "Card.yaml" mark ≠ bareReferences "Card.yaml" text := by
  intro lines text below mark
  have hui : IsEntry "      ui:".toList := by decide
  have hlabel : IsEntry "    label: i18n".toList := by decide
  have hlines : Text.lines text.toList = lines.take 5 ++ "      ui:".toList :: lines.drop 6 := by
    decide
  have hlines' : Text.lines text.toList =
      lines.take 2 ++ "    label: i18n".toList :: lines.drop 3 := by decide
  have hbelow : Text.lines below.toList =
      lines.take 5 ++ commented "      ui:".toList [' ', ' '] " text".toList :: lines.drop 6 := by
    decide
  have hmark : Text.lines mark.toList = lines.take 2 ++
      commented "    label: i18n".toList [' ', ' '] " text".toList :: lines.drop 3 := by decide
  refine ⟨hui, hlabel, hlines, hlines', hbelow, hmark, ?_, ?_⟩
  · exact (bareReferences_commented_iff hui (by decide) (by decide) hlines hbelow).2
      ⟨by decide, by decide⟩
  · refine mt (bareReferences_commented_iff hlabel (by decide) (by decide) hlines' hmark).1 ?_
    decide

end Comments

end NodeType

end TranslationAudit
