import TranslationAudit.Markup.Document
import TranslationAudit.Proofs.Markup.Tag

/-! # Reading piece by piece

A document is read in two passes, all pieces first. Where it succeeds this is the same as reading
each piece as soon as it is cut off, which goes along with the text.

* `readInto`: the reading that goes along with the text, and `parse_eq_ok_iff` the equivalence.
* `readInto_escaped`, `readInto_opening`, `readInto_empty`, `readInto_closing`,
  `readInto_comment`: what each kind of text that a writer emits does to a building, whatever
  follows it.
-/

namespace TranslationAudit.Markup

/-! ## One pass -/

/-- Reads a text into a building, each piece as soon as it is cut off. -/
def readInto (b : Building) (s : List Char) : Option Building :=
  match s with
  | [] => some b
  | c :: r =>
    match cutPiece (c :: r) with
    | .error _ => none
    | .ok (piece, rest) =>
      if rest.length < (c :: r).length then
        match b.add 0 piece with
        | .error _ => none
        | .ok b => readInto b rest
      else (b.add 0 piece).toOption
termination_by s.length
decreasing_by assumption

@[simp] theorem readInto_nil (b : Building) : readInto b [] = some b := by
  rw [readInto]

/-- The offset of a piece stands in errors only. -/
theorem toOption_add (b : Building) (offset : Nat) (p : Piece) :
    (b.add offset p).toOption = (b.add 0 p).toOption := by
  cases p with
  | closing name =>
    unfold Building.add
    cases b.opened with
    | nil => rfl
    | cons e outer =>
      simp only
      split <;> rfl
  | _ => rfl

theorem toOption_addAll_cons (b : Building) (offset : Nat) (p : Piece)
    (rest : List (Nat × Piece)) :
    (b.addAll ((offset, p) :: rest)).toOption =
      (b.add 0 p).toOption.bind fun b => (b.addAll rest).toOption := by
  rw [← toOption_add b offset p, Building.addAll]
  cases b.add offset p <;> rfl

/-- Reading in one pass adds the pieces of the text, if it has no error. -/
theorem readInto_eq (b : Building) (offset : Nat) (s : List Char) :
    readInto b s =
      if (piecesFrom offset s).2.isNone then (b.addAll (piecesFrom offset s).1).toOption
      else none := by
  fun_induction piecesFrom offset s generalizing b with
  | case1 => simp [Building.addAll, Except.toOption]
  | case2 offset c r e he =>
    rw [readInto, he]
    rfl
  | case3 offset c r piece rest hcut hshorter others ending hrest ih =>
    rw [readInto, hcut]
    simp only [hrest] at ih
    simp only [hshorter, if_true, toOption_addAll_cons]
    cases hadd : b.add 0 piece with
    | error e => simp [Except.toOption]
    | ok b' => simp [Except.toOption, ih b']
  | case4 offset c r piece rest hcut hshorter =>
    rw [readInto, hcut]
    simp only [hshorter, if_false, Option.isNone_none, if_true, toOption_addAll_cons]
    cases b.add 0 piece <;> rfl

/-- A text without the byte order mark before it. -/
def withoutMark (s : List Char) : List Char :=
  match s with
  | '\ufeff' :: r => r
  | _ => s

theorem pieces_eq (s : List Char) : pieces s = piecesFrom 0 (withoutMark s) := by
  unfold pieces
  split
  · rfl
  · next h =>
    have hsame : withoutMark s = s := by
      unfold withoutMark
      split
      · next r => exact absurd rfl (h r)
      · rfl
    rw [hsame]

theorem parse_eq_ok_iff (s : String) (root : Element) :
    parse s = .ok root ↔
      ∃ b, readInto {} (withoutMark s.toList) = some b ∧ b.finish = .ok root := by
  rw [readInto_eq {} 0, ← pieces_eq]
  unfold parse
  obtain ⟨found, ending⟩ := pieces s.toList
  simp only
  cases Building.addAll {} found with
  | error e => simp [Except.toOption]
  | ok b =>
    cases ending with
    | none => simp [Except.toOption]
    | some e => simp

theorem readInto_of_cutPiece {s rest : List Char} {piece : Piece}
    (h : cutPiece s = .ok (piece, rest)) (hshorter : rest.length < s.length) (b : Building) :
    readInto b s = (b.add 0 piece).toOption.bind fun b => readInto b rest := by
  cases s with
  | nil => simp at hshorter
  | cons c r =>
    rw [readInto, h]
    simp only [hshorter, if_true]
    cases b.add 0 piece <;> rfl

/-! ## Text -/

@[simp] theorem appendText_nil (s : String) : appendText [] s = [.text s] := rfl

@[simp] theorem appendText_text (ns : List Node) (s t : String) :
    appendText (ns ++ [.text s]) t = ns ++ [.text (s ++ t)] := by
  simp [appendText]

theorem appendText_element (ns : List Node) (name : String) (attributes : List (String × String))
    (children : List Node) (s : String) :
    appendText (ns ++ [.element name attributes children]) s =
      ns ++ [.element name attributes children, .text s] := by
  simp [appendText]

theorem appendText_comment (ns : List Node) (c s : String) :
    appendText (ns ++ [.comment c]) s = ns ++ [.comment c, .text s] := by
  simp [appendText]

@[simp] theorem appendText_appendText (ns : List Node) (s t : String) :
    appendText (appendText ns s) t = appendText ns (s ++ t) := by
  have more (front : List Node) (n : Node) :
      appendText (front ++ [n, .text s]) t = front ++ [n, .text (s ++ t)] := by
    simpa using appendText_text (front ++ [n]) s t
  rcases List.eq_nil_or_concat ns with rfl | ⟨front, n, rfl⟩
  · rfl
  · rw [List.concat_eq_append]
    cases n with
    | text u => simp only [appendText_text, String.append_assoc]
    | comment c => simp only [appendText_comment, more]
    | element name attributes children => simp only [appendText_element, more]

namespace Building

@[simp] theorem within_within (b : Building) (f g : List Node → List Node) :
    (b.within f).within g = b.within fun ns => g (f ns) := by
  obtain ⟨opened, root⟩ := b
  cases opened <;> rfl

@[simp] theorem opened_within_isEmpty (b : Building) (f : List Node → List Node) :
    (b.within f).opened.isEmpty = b.opened.isEmpty := by
  obtain ⟨opened, root⟩ := b
  cases opened <;> rfl

theorem toOption_add_text (b : Building) (raw : List Char) :
    (b.add 0 (.text raw)).toOption =
      (unescape? raw).bind fun s =>
        if b.opened.isEmpty && !Text.allBlank s then none
        else some (b.within (appendText · (String.ofList s))) := by
  simp only [add, unescape?]
  cases unescape raw with
  | error e => rfl
  | ok s =>
    simp only [Except.toOption, Option.bind_some]
    by_cases h : (b.opened.isEmpty && !Text.allBlank s) = true <;> simp [h]

end Building

theorem cutPiece_of_ne {c : Char} (hc : c ≠ '<') (r : List Char) :
    cutPiece (c :: r) =
      .ok (.text ((c :: r).takeWhile (· ≠ '<')), (c :: r).dropWhile (· ≠ '<')) := by
  unfold cutPiece
  split
  · next h =>
    cases h
    exact absurd rfl hc
  · rfl

/-- A run of text up to the next bracket is one piece. -/
theorem readInto_run {c : Char} (hc : c ≠ '<') (r : List Char) (b : Building) :
    readInto b (c :: r) =
      (b.add 0 (.text ((c :: r).takeWhile (· ≠ '<')))).toOption.bind fun b =>
        readInto b ((c :: r).dropWhile (· ≠ '<')) := by
  refine readInto_of_cutPiece (cutPiece_of_ne hc r) ?_ b
  have hle := (List.dropWhile_suffix (l := r) (· ≠ '<')).length_le
  simp only [List.dropWhile_cons, ne_eq, hc, not_false_eq_true, decide_true, if_true,
    List.length_cons]
  simp only [ne_eq] at hle
  omega

theorem exists_escaped_eq_cons {u : List Char} (hu : u ≠ []) : ∃ c r, escaped u = c :: r := by
  cases u with
  | nil => exact absurd rfl hu
  | cons d u =>
    rw [escaped, List.flatMap_cons]
    cases hd : isSpecial d with
    | false => exact ⟨d, u.flatMap escapeChar, by rw [escapeChar_of_not_special hd]; rfl⟩
    | true =>
      obtain ⟨name, he, -, -⟩ := escapeChar_of_special hd
      exact ⟨'&', name ++ [';'] ++ u.flatMap escapeChar, by rw [he]; rfl⟩

/-- Escaped text joins the innermost open element. What follows may be more text: the two are
one piece then, which reads as both in turn. -/
theorem readInto_escaped {u : List Char} (hu : u ≠ []) (b : Building)
    (hb : b.opened.isEmpty = true → Text.allBlank u = true) (rest : List Char) :
    readInto b (escaped u ++ rest) =
      readInto (b.within (appendText · (String.ofList u))) rest := by
  have noBracket : ∀ c ∈ escaped u, (decide (c ≠ '<')) = true := by
    intro c hc
    have hne : c ≠ '<' := by
      rintro rfl
      exact not_mem_escaped (by decide) (by decide) hc
    simpa using hne
  -- the reader needs a first character to see that a run of text begins
  obtain ⟨c, r, hcr⟩ := exists_escaped_eq_cons hu
  have hc : c ≠ '<' := by simpa using noBracket c (by simp [hcr])
  have hrun : readInto b (escaped u ++ rest) =
      (b.add 0 (.text (escaped u ++ rest.takeWhile (· ≠ '<')))).toOption.bind fun b =>
        readInto b (rest.dropWhile (· ≠ '<')) := by
    rw [← List.takeWhile_append_of_pos noBracket, ← List.dropWhile_append_of_pos noBracket,
      hcr, List.cons_append]
    exact readInto_run hc (r ++ rest) b
  have hinside : (b.opened.isEmpty && !Text.allBlank u) = false := by
    cases hempty : b.opened.isEmpty with
    | false => rfl
    | true => rw [hb hempty]; rfl
  rw [hrun, Building.toOption_add_text, unescape?_escaped_append]
  -- the run that begins in `u` goes on into `rest` up to its next tag
  cases rest with
  | nil =>
    simp only [List.takeWhile_nil, List.dropWhile_nil, unescape?_nil, Option.map_some,
      Option.bind_some, List.append_nil, hinside, Bool.false_eq_true, if_false]
  | cons d t =>
    by_cases hd : d = '<'
    · subst hd
      have htake : ('<' :: t).takeWhile (· ≠ '<') = [] := by simp
      have hdrop : ('<' :: t).dropWhile (· ≠ '<') = '<' :: t := by simp
      simp only [htake, hdrop, unescape?_nil, Option.map_some, Option.bind_some,
        List.append_nil, hinside, Bool.false_eq_true, if_false]
    · rw [readInto_run hd, Building.toOption_add_text]
      cases unescape? ((d :: t).takeWhile (· ≠ '<')) with
      | none => rfl
      | some v =>
        simp only [Option.map_some, Option.bind_some, Building.opened_within_isEmpty,
          Building.within_within, appendText_appendText, ← String.ofList_append]
        cases hempty : b.opened.isEmpty with
        | false => simp
        | true =>
          have hblank := hb hempty
          simp only [Text.allBlank] at hblank ⊢
          simp [hblank]

/-! ## Tags -/

theorem cutMarkup_tag {c : Char} {r : List Char} (h1 : c ≠ '!') (h2 : c ≠ '?') :
    cutMarkup (c :: r) =
      match cutTag? none (c :: r) with
      | none => .error (.notClosed .tag)
      | some ('/' :: content, rest) => .ok (.closing (closingName content), rest)
      | some (content, rest) =>
        match Text.before? ['/'] content with
        | some content => .ok (.empty content, rest)
        | none => .ok (.opening content, rest) := by
  unfold cutMarkup
  split
  · next h => cases h; exact absurd rfl h1
  · next h => cases h; exact absurd rfl h2
  · next h => cases h; exact absurd rfl h2
  · rfl

section Tag

variable {name : String} (hname : isName name = true)
variable {attributes : List (String × String)} (h : AttributesNamed attributes)
include hname

theorem exists_cons_tagText (attributes : List (String × String)) :
    ∃ c r, (tagText name attributes).toList = c :: r ∧ c ∉ tagMarks := by
  obtain ⟨c, r, hs⟩ := List.exists_cons_of_ne_nil (toList_ne_nil_of_isName hname)
  refine ⟨c, r ++ attributesText attributes, by simp [toList_tagText, hs], ?_⟩
  intro hm
  exact not_mem_of_isName hname hm (by simp [hs])

theorem exists_concat_tagText (attributes : List (String × String)) :
    ∃ y d, (tagText name attributes).toList = y ++ [d] ∧ d ≠ '/' := by
  rcases List.eq_nil_or_concat attributes with rfl | ⟨as, a, rfl⟩
  · rcases List.eq_nil_or_concat name.toList with hnil | ⟨y, d, hy⟩
    · exact absurd hnil (toList_ne_nil_of_isName hname)
    · refine ⟨y, d, by simp [toList_tagText, attributesText, hy], ?_⟩
      exact ne_of_isName hname (by simp [hy]) (by decide)
  · refine ⟨name.toList ++ attributesText as ++
      ' ' :: a.1.toList ++ '=' :: '"' :: escaped a.2.toList, '"', ?_, by decide⟩
    simp [toList_tagText, attributesText, attributeText]

include h

theorem cutPiece_opening (rest : List Char) :
    cutPiece ('<' :: (tagText name attributes).toList ++ '>' :: rest) =
      .ok (.opening (tagText name attributes).toList, rest) := by
  obtain ⟨c, r, hs, hc⟩ := exists_cons_tagText hname attributes
  obtain ⟨y, d, hy, hd⟩ := exists_concat_tagText hname attributes
  have hne {m : Char} (hm : m ∈ tagMarks) : c ≠ m := fun e => hc (e ▸ hm)
  have hcut := (Passes.tagText hname h).cutTag? rest
  have hbefore := Text.before?_concat_ne hd y
  rw [← hy] at hbefore
  rw [hs] at hcut hbefore ⊢
  rw [List.cons_append, List.cons_append, cutPiece,
    cutMarkup_tag (hne (by decide)) (hne (by decide)), ← List.cons_append, hcut]
  split
  · next heq => cases heq
  · next heq =>
    cases heq
    exact absurd rfl (hne (by decide))
  · next heq =>
    cases heq
    simp only [hbefore]

theorem cutPiece_empty (rest : List Char) :
    cutPiece ('<' :: (tagText name attributes).toList ++ '/' :: '>' :: rest) =
      .ok (.empty (tagText name attributes).toList, rest) := by
  obtain ⟨c, r, hs, hc⟩ := exists_cons_tagText hname attributes
  have hne {m : Char} (hm : m ∈ tagMarks) : c ≠ m := fun e => hc (e ▸ hm)
  have hslash : Passes ['/'] := Passes.of_no_marks (by simp)
  have hcut := ((Passes.tagText hname h).append hslash).cutTag? rest
  have hbefore := Text.before?_concat (tagText name attributes).toList '/'
  rw [List.append_assoc, List.singleton_append] at hcut
  rw [hs] at hcut hbefore ⊢
  rw [List.cons_append, List.cons_append, cutPiece,
    cutMarkup_tag (hne (by decide)) (hne (by decide)), ← List.cons_append, hcut]
  split
  · next heq => cases heq
  · next heq =>
    cases heq
    exact absurd rfl (hne (by decide))
  · next heq =>
    cases heq
    simp only [hbefore]

theorem readInto_opening (b : Building) (hb : b.opened.isEmpty = true → b.root = none)
    (rest : List Char) :
    readInto b ('<' :: (tagText name attributes).toList ++ '>' :: rest) =
      readInto { b with opened := ⟨name, attributes, []⟩ :: b.opened } rest := by
  have hroot : (b.opened.isEmpty && b.root.isSome) = false := by
    cases hempty : b.opened.isEmpty with
    | false => rfl
    | true => simp [hb hempty]
  rw [readInto_of_cutPiece (cutPiece_opening hname h rest) (by simp; omega)]
  simp [Building.add, readTag_tagText hname h, hroot, Except.toOption]

theorem readInto_empty (parent : Element) (outer : List Element) (root : Option Element)
    (rest : List Char) :
    readInto ⟨parent :: outer, root⟩
        ('<' :: (tagText name attributes).toList ++ '/' :: '>' :: rest) =
      readInto ⟨{ parent with
          children := parent.children ++ [.element name attributes []] } :: outer, root⟩ rest := by
  rw [readInto_of_cutPiece (cutPiece_empty hname h rest) (by simp; omega)]
  simp [Building.add, readTag_tagText hname h, Building.attach, Except.toOption, Element.toNode]

omit h

theorem closingName_of_isName : closingName name.toList = name.toList := by
  have hspace := isSpace_eq_false_of_isName hname
  obtain ⟨c, r, hs⟩ := List.exists_cons_of_ne_nil (toList_ne_nil_of_isName hname)
  have hall : name.toList.all isSpace = false := by
    rw [hs, List.all_cons, hspace c (by simp [hs]), Bool.false_and]
  have hdrop : name.toList.reverse.dropWhile isSpace = name.toList.reverse := by
    cases hr : name.toList.reverse with
    | nil => rfl
    | cons d t =>
      have hd : d ∈ name.toList := by
        rw [← List.mem_reverse, hr]
        exact List.mem_cons_self
      simp [hspace d hd]
  simp [closingName, hall, Text.dropEndWhile, hdrop]

theorem cutPiece_closing (rest : List Char) :
    cutPiece ('<' :: '/' :: name.toList ++ '>' :: rest) = .ok (.closing name.toList, rest) := by
  have hslash : Passes ['/'] := Passes.of_no_marks (by simp)
  have hcut := (hslash.append (Passes.of_isName hname)).cutTag? rest
  rw [List.append_assoc, List.singleton_append] at hcut
  rw [List.cons_append, List.cons_append, cutPiece,
    cutMarkup_tag (by decide) (by decide), hcut]
  simp [closingName_of_isName hname]

theorem readInto_closing (attributes : List (String × String)) (children : List Node)
    (parent : Element) (outer : List Element) (root : Option Element) (rest : List Char) :
    readInto ⟨⟨name, attributes, children⟩ :: parent :: outer, root⟩
        ('<' :: '/' :: name.toList ++ '>' :: rest) =
      readInto ⟨{ parent with
        children := parent.children ++ [.element name attributes children] } :: outer, root⟩
        rest := by
  rw [readInto_of_cutPiece (cutPiece_closing hname rest) (by simp; omega)]
  simp [Building.add, Building.attach, Except.toOption, Element.toNode]

theorem readInto_closing_root (attributes : List (String × String)) (children : List Node)
    (rest : List Char) :
    readInto ⟨[⟨name, attributes, children⟩], none⟩ ('<' :: '/' :: name.toList ++ '>' :: rest) =
      readInto ⟨[], some ⟨name, attributes, children⟩⟩ rest := by
  rw [readInto_of_cutPiece (cutPiece_closing hname rest) (by simp; omega)]
  simp [Building.add, Building.attach, Except.toOption]

end Tag

/-! ## Comments and declarations -/

theorem eq_append_of_cutAtText? {e s a r : List Char} (h : cutAtText? e s = some (a, r)) :
    s = a ++ e ++ r := by
  induction s generalizing a with
  | nil =>
    simp only [cutAtText?, Option.map_eq_some_iff, Prod.mk.injEq] at h
    obtain ⟨t, ht, rfl, rfl⟩ := h
    simpa using Text.eq_append_of_after? ht
  | cons c s ih =>
    rw [cutAtText?] at h
    split at h
    · next t ht =>
      cases h
      simpa using Text.eq_append_of_after? ht
    · simp only [Option.map_eq_some_iff, Prod.mk.injEq] at h
      obtain ⟨⟨a', r'⟩, hs, rfl, rfl⟩ := h
      rw [ih hs]
      simp

/-- Where a text ends does not depend on what follows. -/
theorem cutAtText?_append {e s a r : List Char} (h : cutAtText? e s = some (a, r))
    (t : List Char) : cutAtText? e (s ++ t) = some (a, r ++ t) := by
  induction s generalizing a with
  | nil =>
    simp only [cutAtText?, Option.map_eq_some_iff, Prod.mk.injEq] at h
    obtain ⟨u, hu, rfl, rfl⟩ := h
    have he : e = [] ∧ u = [] := by
      have := Text.eq_append_of_after? hu
      simpa using this.symm
    obtain ⟨rfl, rfl⟩ := he
    cases t <;> simp [cutAtText?, Text.after?]
  | cons c s ih =>
    have hlength : e.length ≤ (c :: s).length := by
      have := congrArg List.length (eq_append_of_cutAtText? h)
      simp only [List.length_append] at this
      omega
    rw [cutAtText?] at h
    rw [List.cons_append, cutAtText?, ← List.cons_append, Text.after?_append_of_le hlength]
    split at h
    · next u hu =>
      cases h
      simp [hu]
    · next hu =>
      simp only [Option.map_eq_some_iff, Prod.mk.injEq] at h
      obtain ⟨⟨a', r'⟩, hs, rfl, rfl⟩ := h
      simp [hu, ih hs]

/-- A text that can stand in a comment: it is not ended early. -/
def IsComment (s : String) : Prop :=
  cutAtText? "-->".toList (s.toList ++ "-->".toList) = some (s.toList, [])

instance (s : String) : Decidable (IsComment s) := inferInstanceAs (Decidable (_ = _))

theorem cutAtText?_self {e s a r : List Char} (h : cutAtText? e s = some (a, r)) :
    cutAtText? e (a ++ e) = some (a, []) := by
  have found (t : List Char) : cutAtText? e (e ++ t) = some ([], t) := by
    cases he : e ++ t with
    | nil =>
      obtain ⟨rfl, rfl⟩ := List.append_eq_nil_iff.1 he
      rfl
    | cons c u =>
      rw [cutAtText?, ← he, Text.after?_append]
  induction s generalizing a with
  | nil =>
    simp only [cutAtText?, Option.map_eq_some_iff, Prod.mk.injEq] at h
    obtain ⟨u, hu, rfl, rfl⟩ := h
    simpa using found []
  | cons c s ih =>
    have hs := eq_append_of_cutAtText? h
    rw [cutAtText?] at h
    split at h
    · cases h
      simpa using found []
    · next hu =>
      simp only [Option.map_eq_some_iff, Prod.mk.injEq] at h
      obtain ⟨⟨a', r'⟩, hcut, rfl, rfl⟩ := h
      have hnone : Text.after? e (c :: a' ++ e) = none := by
        rw [hs, Text.after?_append_of_le (by simp; omega)] at hu
        simpa using hu
      rw [List.cons_append, cutAtText?, ← List.cons_append, hnone]
      simp [ih hcut]

theorem cutPiece_comment {s : String} (h : IsComment s) (rest : List Char) :
    cutPiece ("<!--".toList ++ s.toList ++ "-->".toList ++ rest) =
      .ok (.comment s.toList, rest) := by
  have hcut := cutAtText?_append h rest
  rw [List.nil_append] at hcut
  simp only [List.append_assoc] at hcut ⊢
  have hopen : "<!--".toList = ['<', '!', '-', '-'] := by decide
  simp only [hopen, List.cons_append, List.nil_append, cutPiece, cutMarkup, cutDeclaration, hcut]

theorem readInto_comment {s : String} (h : IsComment s) (b : Building) (rest : List Char) :
    readInto b ("<!--".toList ++ s.toList ++ "-->".toList ++ rest) =
      readInto (b.within (· ++ [.comment s])) rest := by
  rw [readInto_of_cutPiece (cutPiece_comment h rest) (by simp; omega)]
  simp [Building.add, Except.toOption]

theorem readInto_instruction {c : Char} {s : List Char} (hc : c ≠ '>')
    (h : cutAtText? "?>".toList (c :: s ++ "?>".toList) = some (c :: s, [])) (b : Building)
    (rest : List Char) :
    readInto b ('<' :: '?' :: c :: s ++ "?>".toList ++ rest) = readInto b rest := by
  have hcut := cutAtText?_append h rest
  rw [List.nil_append] at hcut
  have hpiece : cutPiece ('<' :: '?' :: c :: s ++ "?>".toList ++ rest) = .ok (.ignored, rest) := by
    simp only [List.cons_append, List.append_assoc] at hcut ⊢
    rw [cutPiece, cutMarkup]
    · simp only [hcut]
    · intro r e
      cases e
      exact hc rfl
  rw [readInto_of_cutPiece hpiece (by simp; omega)]
  simp [Building.add, Except.toOption]

end TranslationAudit.Markup
