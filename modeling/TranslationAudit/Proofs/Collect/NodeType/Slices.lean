import TranslationAudit.Collect.NodeType.Checked
import TranslationAudit.Proofs.Collect.KeyLine
import TranslationAudit.Proofs.Text.Slice

/-! # Slices of a node type file

* `NodeType.Checked.normalizeKey?_concat`: from a key that begins with a quote the last character is
  taken as well, if it is one byte, and there is no such slice otherwise.
* `NodeType.Fails`: a line whose key begins with a quote and ends in a longer character.
* `NodeType.eq_of_collectNodeTypes?`: what is read does not depend on the slices.
* `NodeType.collectNodeTypes?_iff`: a file can be read unless it has a line that fails.
-/

namespace TranslationAudit.NodeType

open Text

variable {q c : Char} {s line raw value : List Char} {lines front rest : List (List Char)}

/-! ## Keys -/

/-- The key of a line as it is written, and what follows its colon. -/
def capture? (trimmed : List Char) : Option (List Char × List Char) :=
  (cutQuotedKey? trimmed).or (cutPlainKey? trimmed)

theorem isQuote_iff : Checked.isQuote q = true ↔ IsQuote q := by
  simp [Checked.isQuote, IsQuote]

theorem utf8Size_of_isQuote (h : IsQuote q) : q.utf8Size = 1 := by
  obtain rfl | rfl := h <;> rfl

namespace Checked

theorem normalizeKey?_of_not_isQuote (h : ∀ q ∈ (trim raw).head?, ¬IsQuote q) :
    normalizeKey? raw = some (trim raw) ∧ normalizeKey raw = trim raw := by
  rw [normalizeKey?, normalizeKey]
  cases hkey : trim raw with
  | nil => exact ⟨rfl, rfl⟩
  | cons q s =>
    have hq : ¬IsQuote q := h q (by rw [hkey]; rfl)
    have hfalse : isQuote q = false := by
      rw [← Bool.not_eq_true, isQuote_iff]
      exact hq
    constructor
    · simp [hfalse]
    · cases s with
      | nil => rfl
      | cons c s => exact if_neg hq

theorem normalizeKey?_singleton (h : trim raw = [q]) (hq : IsQuote q) :
    normalizeKey? raw = some [q] ∧ normalizeKey raw = [q] := by
  have hsize : byteLength [q] = 1 := by
    rw [byteLength_cons, byteLength_nil, utf8Size_of_isQuote hq]
  rw [normalizeKey?, normalizeKey, h]
  simp [hsize]

/-- A key that begins with a quote loses what is taken for its last quote. -/
theorem normalizeKey?_concat (h : trim raw = q :: (s ++ [c])) (hq : IsQuote q) :
    normalizeKey? raw = if c.utf8Size = 1 then some s else none := by
  have hkey : byteLength (q :: (s ++ [c])) = 1 + byteLength s + c.utf8Size := by
    rw [byteLength_cons, byteLength_append, byteLength_cons, byteLength_nil, utf8Size_of_isQuote hq]
    omega
  have hpos := c.utf8Size_pos
  have hlong : 2 ≤ 1 + byteLength s + c.utf8Size := by omega
  have hread : normalizeKey? raw =
      slice? (q :: (s ++ [c])) 1 (1 + byteLength s + c.utf8Size - 1) := by
    simp [normalizeKey?, h, hkey, hlong, isQuote_iff.2 hq]
  have hbody : IsRest (q :: (s ++ [c])) 1 (s ++ [c]) := ⟨[q], rfl, by
    rw [byteLength_cons, byteLength_nil, utf8Size_of_isQuote hq]⟩
  rw [hread]
  split
  · next hsize => rw [hsize, Nat.add_sub_cancel, hbody.slice?]
  · next hsize =>
    -- the slice would end within the last character
    refine Option.eq_none_iff_forall_ne_some.2 fun t ht => hsize ?_
    obtain ⟨u, v, htext, hu, hstop⟩ := slice?_eq_some_iff.1 ht
    have hend : s ++ [c] = t ++ v := hbody.unique ⟨u, htext, hu⟩
    rcases List.append_eq_append_iff.1 hend with ⟨w, rfl, hw⟩ | ⟨w, rfl, -⟩
    · rcases List.append_eq_singleton_iff.1 hw.symm with ⟨rfl, -⟩ | ⟨rfl, -⟩
      · rw [List.append_nil] at hstop
        omega
      · rw [byteLength_append, byteLength_cons, byteLength_nil] at hstop
        omega
    · rw [byteLength_append] at hstop
      omega

theorem normalizeKey_concat (h : trim raw = q :: (s ++ [c])) (hq : IsQuote q) :
    normalizeKey raw = s := by
  rw [normalizeKey, h]
  cases s with
  | nil => exact if_pos hq
  | cons d s =>
    refine (if_pos hq).trans ?_
    change (d :: s ++ [c]).dropLast = d :: s
    rw [List.dropLast_concat]

end Checked

/-- A key that begins with a quote, and that ends in a character of more than one byte. -/
def IsOpen (raw : List Char) : Prop :=
  ∃ q s c, trim raw = q :: (s ++ [c]) ∧ IsQuote q ∧ c.utf8Size ≠ 1

theorem Checked.normalizeKey?_isOpen (h : IsOpen raw) : normalizeKey? raw = none := by
  obtain ⟨q, s, c, htrim, hq, hc⟩ := h
  rw [normalizeKey?_concat htrim hq, if_neg hc]

theorem Checked.normalizeKey?_not_isOpen (h : ¬IsOpen raw) :
    normalizeKey? raw = some (normalizeKey raw) := by
  by_cases hquote : ∀ q ∈ (trim raw).head?, ¬IsQuote q
  · obtain ⟨hread, hkey⟩ := normalizeKey?_of_not_isQuote hquote
    rw [hread, hkey]
  · push Not at hquote
    obtain ⟨q, hhead, hq⟩ := hquote
    obtain ⟨r, hr⟩ := List.head?_eq_some_iff.1 hhead
    rcases List.eq_nil_or_concat' r with rfl | ⟨s, c, rfl⟩
    · obtain ⟨hread, hkey⟩ := normalizeKey?_singleton hr hq
      rw [hread, hkey]
    · have hc : c.utf8Size = 1 := by
        by_contra hc
        exact h ⟨q, s, c, hr, hq, hc⟩
      rw [normalizeKey?_concat hr hq, if_pos hc, normalizeKey_concat hr hq]

/-! ## Lines -/

/-- A line whose key begins with a quote and ends in a character of more than one byte. -/
structure Fails (line : List Char) : Prop where
  notSkipped : isSkipped (trim line) = false
  isOpen : ∃ found ∈ capture? (trim line), IsOpen found.1

theorem exists_of_cutQuotedKey? (h : cutQuotedKey? s = some (raw, value)) :
    ∃ q t, IsQuote q ∧ raw = q :: (t ++ [q]) ∧ trim raw = raw := by
  unfold cutQuotedKey? at h
  split at h
  · next q r =>
    split at h
    · next hq =>
      split at h
      · next c key rest hcut =>
        rw [Option.ite_none_right_eq_some] at h
        cases h.2
        have hblank : isBlank q = false := by
          obtain rfl | rfl := hq <;> rfl
        exact ⟨q, c :: key, hq, rfl, trim_eq_of_ends (by rintro d ⟨⟩; exact hblank) nofun hblank⟩
      · cases h
    · cases h
  · cases h

/-- A captured key that begins with a quote ends in the same one, unless it stands in no quotes. -/
theorem eq_or_cutQuotedKey?_eq_none {t : List Char} (h : capture? s = some (raw, value))
    (htrim : trim raw = q :: (t ++ [c])) : c = q ∨ cutQuotedKey? s = none := by
  cases hquoted : cutQuotedKey? s with
  | none => exact .inr rfl
  | some quoted =>
    rw [capture?, hquoted, Option.some_or, Option.some.injEq] at h
    subst h
    obtain ⟨r, body, -, hraw, hkey⟩ := exists_of_cutQuotedKey? hquoted
    rw [hkey, hraw, List.cons_eq_cons] at htrim
    obtain ⟨rfl, hends⟩ := htrim
    exact .inl (List.singleton_inj.1 (List.append_inj' hends rfl).2).symm

namespace Checked

theorem splitKeyLine?_eq (h : ∀ found ∈ capture? s, ¬IsOpen found.1) :
    splitKeyLine? s = some (NodeType.splitKeyLine? s) := by
  rw [splitKeyLine?, NodeType.splitKeyLine?, ← capture?]
  cases hcapture : capture? s with
  | none => rfl
  | some found => simp only [normalizeKey?_not_isOpen (h found hcapture), Option.map_some]

theorem splitKeyLine?_fails (h : Fails line) : splitKeyLine? (trim line) = none := by
  obtain ⟨found, hcapture, hopen⟩ := h.isOpen
  rw [splitKeyLine?, ← capture?, hcapture]
  simp only [normalizeKey?_isOpen hopen, Option.map_none]

theorem splitKeyLine?_not_fails (h : ¬Fails line) (hskipped : isSkipped (trim line) = false) :
    splitKeyLine? (trim line) = some (NodeType.splitKeyLine? (trim line)) :=
  splitKeyLine?_eq fun found hcapture hopen => h ⟨hskipped, found, hcapture, hopen⟩

theorem blockName?_not_fails (h : ¬Fails line) :
    blockName? line = some (NodeType.blockName? line) := by
  cases hskipped : isSkipped (trim line) with
  | true => simp [blockName?, NodeType.blockName?, hskipped]
  | false =>
    simp only [blockName?, NodeType.blockName?, hskipped, splitKeyLine?_not_fails h hskipped]
    split <;> rfl

/-! ## Labels -/

theorem labels?_not_fails (h : ∀ line ∈ lines, ¬Fails line) (number : Nat) (opened : List Frame) :
    labels? number opened lines = some (labels number opened lines) := by
  induction lines generalizing number opened with
  | nil => rfl
  | cons line lines ih =>
    rw [List.forall_mem_cons] at h
    rw [labels?, labels]
    cases hskipped : isSkipped (trim line) with
    | true => exact ih h.2 _ _
    | false =>
      simp only [splitKeyLine?_not_fails h.1 hskipped, ih h.2, Option.bind_eq_bind,
        Option.bind_some]
      cases NodeType.splitKeyLine? (trim line) with
      | none => rfl
      | some found =>
        dsimp only
        split_ifs <;> rfl

theorem labels?_fails (h : ∃ line ∈ lines, Fails line) (number : Nat) (opened : List Frame) :
    labels? number opened lines = none := by
  induction lines generalizing number opened with
  | nil => simp at h
  | cons line lines ih =>
    rw [labels?]
    cases hskipped : isSkipped (trim line) with
    | true =>
      obtain ⟨failing, hmem, hfails⟩ := h
      rcases List.mem_cons.1 hmem with rfl | hmem
      · rw [hfails.notSkipped] at hskipped
        cases hskipped
      · exact ih ⟨failing, hmem, hfails⟩ _ _
    | false =>
      by_cases hline : Fails line
      · simp [splitKeyLine?_fails hline]
      · have hlater : ∃ line ∈ lines, Fails line := by
          obtain ⟨failing, hmem, hfails⟩ := h
          rcases List.mem_cons.1 hmem with rfl | hmem
          · exact absurd hfails hline
          · exact ⟨failing, hmem, hfails⟩
        simp only [splitKeyLine?_not_fails hline hskipped, ih hlater, Option.bind_eq_bind,
          Option.bind_some, Option.bind_none]
        cases NodeType.splitKeyLine? (trim line) with
        | none => rfl
        | some found => simp

/-! ## Contexts -/

theorem lineSlice?_append (front rest : List (List Char)) {start : Nat} (h : start ≤ front.length) :
    lineSlice? (front ++ rest) start front.length = some (front.drop start) := by
  rw [lineSlice?, if_pos ⟨h, by simp⟩, List.take_left]

/-- The blocks of the lines that are left, behind the one that is open. -/
theorem blocksFrom?_eq (front : List (List Char)) (h : ∀ line ∈ rest, ¬Fails line)
    (opened : Option (String × Nat)) (hopened : ∀ block ∈ opened, block.2 ≤ front.length) :
    blocksFrom? (front ++ rest) opened front.length rest =
      some ((opened.map fun block => (block.1, front.drop block.2 ++ (blocks rest).2)).toList ++
        (blocks rest).1) := by
  induction rest generalizing front opened with
  | nil =>
    cases opened with
    | none => rfl
    | some block =>
      have hbody := lineSlice?_append front [] (hopened block rfl)
      rw [List.append_nil] at hbody ⊢
      simp [blocksFrom?, hbody, blocks]
  | cons line rest ih =>
    rw [List.forall_mem_cons] at h
    have hfront : front ++ line :: rest = (front ++ [line]) ++ rest := by simp
    have hlength : front.length + 1 = (front ++ [line]).length := by simp
    rw [blocksFrom?, blockName?_not_fails h.1, blocks, hlength, hfront]
    simp only [Option.bind_eq_bind, Option.bind_some]
    cases NodeType.blockName? line with
    | none =>
      have hlater := ih (front ++ [line]) h.2 opened fun block hmem => by
        have hle := hopened block hmem
        omega
      dsimp only
      rw [hlater]
      cases opened with
      | none => rfl
      | some block => simp [List.drop_append_of_le_length (hopened block rfl)]
    | some name =>
      have hlater := ih (front ++ [line]) h.2 (some (name, front.length)) (by simp)
      dsimp only
      rw [hlater]
      cases opened with
      | none => simp
      | some block =>
        simp [lineSlice?_append front (line :: rest) (hopened block rfl)]

theorem contexts?_eq (h : ∀ line ∈ lines, ¬Fails line) :
    contexts? lines = some (contexts lines) := by
  have hblocks := blocksFrom?_eq [] h none nofun
  rw [List.nil_append, List.length_nil] at hblocks
  rw [contexts?, hblocks]
  rfl

end Checked

/-! ## Files -/

section Files

variable {file text : String}

theorem collectNodeTypes?_not_fails (h : ∀ line ∈ Text.lines text.toList, ¬Fails line) :
    collectNodeTypes? file text = some (collectNodeTypes file text) := by
  simp only [collectNodeTypes?, Checked.contexts?_eq h, Checked.labels?_not_fails h,
    Option.bind_eq_bind, Option.bind_some]
  rfl

theorem collectNodeTypes?_fails (h : ∃ line ∈ Text.lines text.toList, Fails line) :
    collectNodeTypes? file text = none := by
  simp only [collectNodeTypes?, Checked.labels?_fails h, Option.bind_eq_bind, Option.bind_none]
  cases Checked.contexts? (Text.lines text.toList) <;> rfl

theorem isSome_collectNodeTypes?_iff :
    (collectNodeTypes? file text).isSome = true ↔ ∀ line ∈ Text.lines text.toList, ¬Fails line := by
  constructor
  · intro h line hmem hline
    rw [collectNodeTypes?_fails ⟨line, hmem, hline⟩] at h
    cases h
  · intro h
    rw [collectNodeTypes?_not_fails h]
    rfl

theorem eq_of_collectNodeTypes? {found : List Reference}
    (h : collectNodeTypes? file text = some found) : found = collectNodeTypes file text := by
  have hlines := isSome_collectNodeTypes?_iff.1 (Option.isSome_of_eq_some h)
  rw [collectNodeTypes?_not_fails hlines] at h
  exact (Option.some.inj h).symm

end Files

/-- A file is read without a slice that fails unless it has a line whose key begins with a quote and
ends in a character of more than one byte. A key that begins with a quote loses its last character,
if that is one byte; and that character is the same quote unless the key stands in no quotes. -/
theorem collectNodeTypes?_iff (file text : String) :
    (collectNodeTypes? file text = some (collectNodeTypes file text) ↔
        ∀ line ∈ Text.lines text.toList, ¬Fails line) ∧
      (collectNodeTypes? file text = none ↔ ∃ line ∈ Text.lines text.toList, Fails line) ∧
      ∀ s raw value, capture? s = some (raw, value) → ∀ q t c, IsQuote q →
        trim raw = q :: (t ++ [c]) →
          Checked.normalizeKey? raw = (if c.utf8Size = 1 then some t else none) ∧
            (c = q ∨ cutQuotedKey? s = none) := by
  refine ⟨⟨fun hread => ?_, collectNodeTypes?_not_fails⟩,
    ⟨fun hnone => ?_, collectNodeTypes?_fails⟩, ?_⟩
  · exact isSome_collectNodeTypes?_iff.1 (Option.isSome_of_eq_some hread)
  · by_contra hlines
    push Not at hlines
    rw [collectNodeTypes?_not_fails hlines] at hnone
    cases hnone
  · intro s raw value hcapture q t c hq htrim
    exact ⟨Checked.normalizeKey?_concat htrim hq, eq_or_cutQuotedKey?_eq_none hcapture htrim⟩

/-- The last character of a key is no quote here: one that is longer than a byte, and one that is
lost. -/
example : collectNodeTypes? "A.yaml" "\"é: x\n" = none ∧
    Checked.normalizeKey? "\"ab".toList = some "a".toList := by decide

end TranslationAudit.NodeType
