import TranslationAudit.Translation.Checked
import TranslationAudit.Proofs.Markup.Rewriting

/-! # The lines around a reference

* `numbered`: the lines of a text whose numbers are in a range.
* `Text.count_unlines`: lines that are joined are told apart by their line feeds.
* `linesAround?`, `contextSnippet`: the text around a line and a reference where nothing fails.
* `Checked.linesAround?_of_lt`: a window that fits into a word is clipped at both ends of the text.
* `Checked.linesAround?_ne_of_le`: a window that does not fit is never clipped this way.
* `Checked.Stops`, `Checked.contextSnippet?_eq_none_iff`: when the program stops at a reference.
* `contextSnippet_clipped`: when the text around a reference is the window around its line.
-/

namespace TranslationAudit

/-! ## Lines -/

section Lines

variable {s line : List Char}

theorem Text.not_mem_lines (h : line ∈ lines s) : '\n' ∉ line := by
  induction s using lines.induct generalizing line with
  | case1 => cases h
  | case2 r ih =>
    rcases List.mem_cons.1 h with rfl | h
    · exact List.not_mem_nil
    · exact ih h
  | case3 r ih =>
    rcases List.mem_cons.1 h with rfl | h
    · exact List.not_mem_nil
    · exact ih h
  | case4 c r hfeed hreturn hnil ih =>
    rw [lines.eq_4 c r hfeed hreturn, hnil] at h
    rw [List.mem_singleton.1 h, List.mem_singleton]
    exact fun hc => hfeed hc.symm
  | case5 c r hfeed hreturn first rest hlines ih =>
    rw [lines.eq_4 c r hfeed hreturn, hlines] at h
    rw [hlines] at ih
    rcases List.mem_cons.1 h with rfl | h
    · rw [List.mem_cons, not_or]
      exact ⟨fun hc => hfeed hc.symm, ih List.mem_cons_self⟩
    · exact ih (List.mem_cons_of_mem first h)

theorem Text.not_mem_slice {m n : Nat} : ∀ line ∈ ((lines s).take m).drop n, '\n' ∉ line :=
  fun _ h => not_mem_lines (List.mem_of_mem_take (List.mem_of_mem_drop h))

theorem Markup.count_linesText {ls : List (List Char)} (h : ∀ line ∈ ls, '\n' ∉ line) :
    (linesText (ls.map String.ofList)).count '\n' = ls.length := by
  induction ls with
  | nil => rfl
  | cons line ls ih =>
    have hline : line.count '\n' = 0 := List.count_eq_zero.2 (h line List.mem_cons_self)
    rw [List.map_cons, linesText_cons, String.toList_ofList, List.count_append, hline,
      List.count_cons_self, ih fun line' hline' => h line' (List.mem_cons_of_mem line hline'),
      List.length_cons, Nat.zero_add]

/-- Lines that are joined have a line feed between any two. -/
theorem Text.count_unlines {ls : List (List Char)} (h : ∀ line ∈ ls, '\n' ∉ line) :
    (unlines (ls.map String.ofList)).toList.count '\n' = ls.length - 1 := by
  rcases List.eq_nil_or_concat ls with rfl | ⟨front, last, rfl⟩
  · rfl
  · rw [List.concat_eq_append] at h ⊢
    have hfront : ∀ line ∈ front, '\n' ∉ line := fun line hline =>
      h line (List.mem_append_left [last] hline)
    have hlast : last.count '\n' = 0 := List.count_eq_zero.2 (h last List.mem_concat_self)
    rw [List.map_append, List.map_singleton, Markup.toList_unlines_concat, List.count_append,
      Markup.count_linesText hfront, String.toList_ofList, hlast, List.length_append]
    rfl

end Lines

/-- The lines with the numbers from `first` to `last`, where the first line has the number 1. -/
def numbered {α : Type} (lines : List α) (first last : Nat) : List α :=
  ((lines.zipIdx 1).filter fun e => first ≤ e.2 ∧ e.2 ≤ last).map Prod.fst

section Numbered

variable {α β : Type}

theorem filter_zipIdx (lines : List α) (k first last : Nat) :
    ((lines.zipIdx k).filter fun e => first ≤ e.2 ∧ e.2 ≤ last).map Prod.fst =
      (lines.take (last + 1 - k)).drop (first - k) := by
  induction lines generalizing k with
  | nil => simp
  | cons line lines ih =>
    rw [List.zipIdx_cons, List.filter_cons]
    by_cases hlast : k ≤ last
    · have htake : last + 1 - k = (last + 1 - (k + 1)) + 1 := by omega
      rw [htake, List.take_succ_cons]
      by_cases hfirst : first ≤ k
      · have hdrop : first - k = first - (k + 1) := by omega
        rw [if_pos (by simp [hfirst, hlast]), List.map_cons, ih, hdrop]
        have hzero : first - (k + 1) = 0 := by omega
        rw [hzero]
        rfl
      · have hdrop : first - k = (first - (k + 1)) + 1 := by omega
        rw [if_neg (by simp [hfirst]), ih, hdrop, List.drop_succ_cons]
    · have htake : last + 1 - k = 0 := by omega
      have htake' : last + 1 - (k + 1) = 0 := by omega
      rw [if_neg (by simp [hlast]), ih, htake, htake', List.take_zero, List.take_zero,
        List.drop_nil, List.drop_nil]

theorem numbered_eq (lines : List α) (first last : Nat) :
    numbered lines first last = (lines.take last).drop (first - 1) :=
  filter_zipIdx lines 1 first last

theorem numbered_map (f : α → β) (lines : List α) (first last : Nat) :
    numbered (lines.map f) first last = (numbered lines first last).map f := by
  rw [numbered_eq, numbered_eq, ← List.map_take, ← List.map_drop]

end Numbered

namespace Translation

open NodeType.Checked (lineSlice?)

variable {o : Checked.Overflow} {m n line window : Nat} {text : String}

/-- The text of the window around a line, clipped at both ends of the text. -/
def clipped (text : String) (line window : Nat) : String :=
  let lines := Text.linesOf text
  Text.unlines (numbered lines (max 1 (line - window)) (min lines.length (line + window)))

/-- The lines that are at most `window` lines away from a line, where sums wrap around and a slice
that ends before its start is empty. -/
def linesAround? (text : String) (line window : Nat) : Option String :=
  let lines := Text.linesOf text
  if line = 0 || line > lines.length then none
  else
    some (Text.unlines ((lines.take (addLines line window)).drop (line - addLines window 1)))

/-- The text around a reference, with `linesAround?` for the lines of its file. -/
def contextSnippet (tree : FileTree) (r : Reference) (window : Nat) : Option String :=
  if r.format = .yaml && r.schemaContext.isSome then r.schemaContext
  else (tree.read r.file).toOption.bind fun text => linesAround? text r.line window

theorem clipped_eq (text : String) (line window : Nat) :
    clipped text line window =
      Text.unlines ((((Text.lines text.toList).take
        (min (Text.lines text.toList).length (line + window))).drop
          (line - (window + 1))).map String.ofList) := by
  have hfirst : max 1 (line - window) - 1 = line - (window + 1) := by omega
  rw [clipped, Text.linesOf, numbered_map, numbered_eq, List.length_map, hfirst]

/-! ## Sums of line numbers -/

theorem addLines_of_lt (h : m + n < UInt64.size) : addLines m n = m + n := Nat.mod_eq_of_lt h

namespace Checked

theorem Overflow.add?_of_lt (h : m + n < UInt64.size) : o.add? m n = some (m + n) := by
  cases o with
  | stops => exact if_pos h
  | wraps => exact congrArg some (addLines_of_lt h)

theorem Overflow.stops_add?_of_le (h : UInt64.size ≤ m + n) : stops.add? m n = none :=
  if_neg (Nat.not_lt.2 h)

/-- A sum that does not fit is too small by a word at least. -/
theorem Overflow.add_size_le {k : Nat} (h : UInt64.size ≤ m + n) (hk : o.add? m n = some k) :
    k + UInt64.size ≤ m + n := by
  cases o with
  | stops =>
    rw [stops_add?_of_le h] at hk
    cases hk
  | wraps =>
    have hmod : (m + n) % UInt64.size = k := Option.some.inj hk
    rw [Nat.mod_eq_sub_mod h] at hmod
    have hle := Nat.mod_le (m + n - UInt64.size) UInt64.size
    omega

/-- Whether the text around a line cannot be cut out of a text that has the line: a sum does not
fit, or the slice ends before its start. -/
def Overflow.Fails : Overflow → Nat → Nat → Prop
  | .stops, line, window => UInt64.size ≤ line + window
  | .wraps, line, window => addLines line window < line - addLines window 1

theorem Overflow.not_fails_of_lt (h : line + window < UInt64.size) : ¬o.Fails line window := by
  cases o with
  | stops => exact Nat.not_le.2 h
  | wraps =>
    rw [Fails, addLines_of_lt h]
    omega

/-- Where sums wrap around, no window but the largest fails, unless the text has more lines than
half the words. -/
theorem Overflow.wraps_fails_iff (hline : 0 < line) (hhalf : 2 * line ≤ UInt64.size)
    (hwindow : window < UInt64.size) : wraps.Fails line window ↔ window = UInt64.size - 1 := by
  rw [Fails, addLines, addLines]
  by_cases hlargest : window = UInt64.size - 1
  · subst hlargest
    have hsum : line + (UInt64.size - 1) = line - 1 + UInt64.size := by omega
    have hstop : (line + (UInt64.size - 1)) % UInt64.size = line - 1 := by
      rw [hsum, Nat.add_mod_right, Nat.mod_eq_of_lt (by omega)]
    have hbefore : (UInt64.size - 1 + 1) % UInt64.size = 0 := by decide
    rw [hstop, hbefore]
    omega
  · have hbefore : (window + 1) % UInt64.size = window + 1 := Nat.mod_eq_of_lt (by omega)
    rw [hbefore]
    refine iff_of_false ?_ hlargest
    by_cases hfits : line + window < UInt64.size
    · rw [Nat.mod_eq_of_lt hfits]
      omega
    · omega

/-! ## The window around a line -/

theorem linesAround?_of_no_line (h : line = 0 ∨ (Text.lines text.toList).length < line) :
    linesAround? o text line window = some none := by
  rw [linesAround?, if_pos (by simpa using h)]

section Line

variable (hline : 0 < line) (hlast : line ≤ (Text.lines text.toList).length)
include hline hlast

theorem linesAround?_eq_bind :
    linesAround? o text line window = (do
      let before ← o.add? window 1
      let stop ← o.add? line window
      let around ← lineSlice? (Text.lines text.toList) (line - before)
        (min stop (Text.lines text.toList).length)
      return some (Text.unlines (around.map String.ofList))) := by
  have hinside : ¬(line = 0 || line > (Text.lines text.toList).length) = true := by
    simp only [Bool.or_eq_true, decide_eq_true_eq]
    omega
  rw [linesAround?, if_neg hinside]

/-- What the sums and the slice were where there is a text around a line. -/
theorem of_linesAround? {s : Option String} (h : linesAround? o text line window = some s) :
    ∃ before stop, o.add? window 1 = some before ∧ o.add? line window = some stop ∧
      line - before ≤ min stop (Text.lines text.toList).length ∧
      s = some (Text.unlines ((((Text.lines text.toList).take
        (min stop (Text.lines text.toList).length)).drop (line - before)).map String.ofList)) := by
  simp only [linesAround?_eq_bind hline hlast, Option.bind_eq_bind, Option.bind_eq_some_iff] at h
  obtain ⟨before, hbefore, stop, hstop, around, haround, hs⟩ := h
  rw [lineSlice?, Option.ite_none_right_eq_some] at haround
  obtain ⟨⟨hle, -⟩, haround⟩ := haround
  cases haround
  exact ⟨before, stop, hbefore, hstop, hle, (Option.some.inj hs).symm⟩

theorem linesAround?_of_lt (h : line + window < UInt64.size) :
    linesAround? o text line window = some (some (clipped text line window)) := by
  have hslice : line - (window + 1) ≤ min (line + window) (Text.lines text.toList).length ∧
      min (line + window) (Text.lines text.toList).length ≤ (Text.lines text.toList).length := by
    omega
  rw [linesAround?_eq_bind hline hlast, Overflow.add?_of_lt (by omega), Overflow.add?_of_lt h,
    clipped_eq, Nat.min_comm _ (line + window)]
  simp only [Option.bind_eq_bind, Option.bind_some, lineSlice?, if_pos hslice]
  rfl

/-- Where the sum of the line and the window does not fit, there are fewer lines or none. -/
theorem linesAround?_ne_of_le (hwindow : window < UInt64.size) (h : UInt64.size ≤ line + window) :
    linesAround? o text line window ≠ some (some (clipped text line window)) := by
  intro heq
  obtain ⟨before, stop, hbefore, hstop, hle, htext⟩ := of_linesAround? hline hlast heq
  have hstop' := Overflow.add_size_le h hstop
  by_cases hfits : window + 1 < UInt64.size
  · rw [Overflow.add?_of_lt hfits] at hbefore
    cases hbefore
    rw [clipped_eq] at htext
    have hcount := congrArg (fun s : String => s.toList.count '\n') (Option.some.inj htext)
    rw [Text.count_unlines Text.not_mem_slice, Text.count_unlines Text.not_mem_slice,
      List.length_drop, List.length_drop, List.length_take, List.length_take] at hcount
    omega
  · have hbefore' := Overflow.add_size_le (Nat.le_of_not_lt hfits) hbefore
    omega

/-- The largest window puts the start of the slice at the line itself and its end before it. -/
theorem linesAround?_largest (h : window = UInt64.size - 1) :
    linesAround? o text line window = none := by
  rw [Option.eq_none_iff_forall_ne_some]
  intro s hs
  obtain ⟨before, stop, hbefore, hstop, hle, -⟩ := of_linesAround? hline hlast hs
  have hpos : 0 < UInt64.size := by decide
  have hbefore' := Overflow.add_size_le (by omega) hbefore
  have hstop' := Overflow.add_size_le (by omega) hstop
  omega

/-- The sums or the slice fail. The slice ends with the text at the latest, and starts inside it. -/
theorem linesAround?_fails_iff : linesAround? o text line window = none ↔ o.Fails line window := by
  cases o with
  | stops =>
    constructor
    · intro h
      by_contra hlt
      rw [linesAround?_of_lt hline hlast (Nat.lt_of_not_le hlt)] at h
      cases h
    · intro h
      rw [Option.eq_none_iff_forall_ne_some]
      intro s hs
      obtain ⟨before, stop, -, hstop, -⟩ := of_linesAround? hline hlast hs
      rw [Overflow.stops_add?_of_le h] at hstop
      cases hstop
  | wraps =>
    have hslice : (line - addLines window 1 ≤
        min (addLines line window) (Text.lines text.toList).length ∧
          min (addLines line window) (Text.lines text.toList).length ≤
            (Text.lines text.toList).length) ↔
        ¬addLines line window < line - addLines window 1 := by
      omega
    rw [linesAround?_eq_bind hline hlast, Overflow.Fails]
    simp only [Overflow.add?, Option.bind_eq_bind, Option.bind_some, lineSlice?, hslice]
    by_cases hends : addLines line window < line - addLines window 1
    · simp [hends]
    · simp [hends]

end Line

/-- Where sums wrap around and the slice is one, the lines are those that are found without it. -/
theorem linesAround_of_wraps {s : Option String}
    (h : linesAround? .wraps text line window = some s) :
    Translation.linesAround? text line window = s := by
  rw [Translation.linesAround?, Text.linesOf, List.length_map]
  by_cases hinside : 0 < line ∧ line ≤ (Text.lines text.toList).length
  · obtain ⟨before, stop, hbefore, hstop, -, rfl⟩ := of_linesAround? hinside.1 hinside.2 h
    cases hbefore
    cases hstop
    have hnot : ¬(line = 0 || line > (Text.lines text.toList).length) = true := by
      simp only [Bool.or_eq_true, decide_eq_true_eq]
      omega
    rw [if_neg hnot, ← List.map_take, ← List.map_drop, ← List.take_eq_take_min]
  · have hnone : line = 0 ∨ (Text.lines text.toList).length < line := by omega
    rw [linesAround?_of_no_line hnone] at h
    cases h
    rw [if_pos (by simpa using hnone)]

/-! ## Where the program stops -/

theorem linesAround?_eq_none_iff :
    linesAround? o text line window = none ↔
      0 < line ∧ line ≤ (Text.lines text.toList).length ∧ o.Fails line window := by
  by_cases hinside : 0 < line ∧ line ≤ (Text.lines text.toList).length
  · rw [linesAround?_fails_iff hinside.1 hinside.2]
    simp only [hinside, true_and]
  · have hnone : line = 0 ∨ (Text.lines text.toList).length < line := by omega
    rw [linesAround?_of_no_line hnone]
    exact iff_of_false nofun fun h => hinside ⟨h.1, h.2.1⟩

/-- Whether the program stops at a reference: it has no block of a node type, its file is a text
that has its line, and the text around that line cannot be cut out. -/
def Stops (o : Overflow) (tree : FileTree) (r : Reference) (window : Nat) : Prop :=
  ¬(r.format = .yaml ∧ r.schemaContext.isSome = true) ∧
    ∃ text, tree.read r.file = .ok text ∧ 0 < r.line ∧ r.line ≤ (Text.linesOf text).length ∧
      o.Fails r.line window

theorem not_stops_of_lt {tree : FileTree} {r : Reference} (h : r.line + window < UInt64.size) :
    ¬Stops o tree r window := by
  rintro ⟨-, _, -, -, -, hfails⟩
  exact Overflow.not_fails_of_lt h hfails

theorem contextSnippet?_eq_none_iff {tree : FileTree} {r : Reference} :
    contextSnippet? o tree r window = none ↔ Stops o tree r window := by
  rw [contextSnippet?, Stops]
  by_cases hblock : r.format = .yaml ∧ r.schemaContext.isSome = true
  · rw [if_pos (by simpa using hblock)]
    exact iff_of_false nofun fun h => h.1 hblock
  · rw [if_neg (by simpa using hblock)]
    cases hread : tree.read r.file with
    | error cause => exact iff_of_false nofun fun h => by obtain ⟨-, _, htext, -⟩ := h; cases htext
    | ok text =>
      simp only [linesAround?_eq_none_iff, hblock, not_false_eq_true, true_and, Except.ok.injEq,
        exists_eq_left', Text.linesOf, List.length_map]

end Checked

variable {tree : FileTree} {r : Reference}

/-- The text around a reference is the window around its line exactly if the line and the window
have a sum that fits into a word. Otherwise the program stops where sums are checked, and gives
fewer lines or stops at the slice where they wrap around. -/
theorem contextSnippet_clipped (hread : tree.read r.file = .ok text)
    (hblock : ¬(r.format = .yaml ∧ r.schemaContext.isSome = true))
    (hwindow : window < UInt64.size) :
    (r.line = 0 ∨ (Text.linesOf text).length < r.line →
      ∀ o, Checked.contextSnippet? o tree r window = some none) ∧
    (0 < r.line → r.line ≤ (Text.linesOf text).length →
      (∀ o, Checked.contextSnippet? o tree r window = some (some (clipped text r.line window)) ↔
        r.line + window < UInt64.size) ∧
      (Checked.contextSnippet? .stops tree r window = none ↔ UInt64.size ≤ r.line + window) ∧
      (window = UInt64.size - 1 → ∀ o, Checked.contextSnippet? o tree r window = none)) ∧
    (∀ s, Checked.contextSnippet? .wraps tree r window = some s →
      contextSnippet tree r window = s) := by
  have hnot : ¬(decide (r.format = .yaml) && r.schemaContext.isSome) = true := by simpa using hblock
  have hchecked (o : Checked.Overflow) : Checked.contextSnippet? o tree r window =
      Checked.linesAround? o text r.line window := by
    rw [Checked.contextSnippet?, if_neg hnot, hread]
  have hwraps : contextSnippet tree r window = linesAround? text r.line window := by
    rw [contextSnippet, if_neg hnot, hread]
    rfl
  rw [Text.linesOf, List.length_map, hwraps]
  simp only [hchecked]
  refine ⟨fun h o => Checked.linesAround?_of_no_line h, ?_, fun s => Checked.linesAround_of_wraps⟩
  refine fun hline hlast => ⟨fun o => ⟨?_, ?_⟩, ?_, ?_⟩
  · intro h
    by_contra hle
    exact Checked.linesAround?_ne_of_le hline hlast hwindow (Nat.le_of_not_lt hle) h
  · exact Checked.linesAround?_of_lt hline hlast
  · exact Checked.linesAround?_fails_iff hline hlast
  · exact fun h o => Checked.linesAround?_largest hline hlast h

theorem contextSnippet_clipped_overflow :
    let tree : FileTree := .put .empty ["A.php"] (.text "one\ntwo\nthree\n")
    let r : Reference :=
      { key := ⟨"Acme.Site", "Main", "a"⟩, format := .php, file := "/A.php", line := 3 }
    contextSnippet tree r 1 = some "two\nthree" ∧
      contextSnippet tree r (UInt64.size - 4) = some "one\ntwo\nthree" ∧
      contextSnippet tree r (UInt64.size - 2) = some "one" ∧
      Checked.contextSnippet? .wraps tree r (UInt64.size - 2) ≠ some (some "one\ntwo\nthree") ∧
      Checked.contextSnippet? .stops tree r (UInt64.size - 2) = none ∧
      Checked.contextSnippet? .wraps tree r (UInt64.size - 1) = none := by
  intro tree r
  have hread : tree.read r.file = .ok "one\ntwo\nthree\n" := by decide
  have hclipped : clipped "one\ntwo\nthree\n" r.line (UInt64.size - 2) = "one\ntwo\nthree" := by
    decide
  have hlast : r.line ≤ (Text.linesOf "one\ntwo\nthree\n").length := by decide
  have hinside (window : Nat) (hwindow : window < UInt64.size) :=
    (contextSnippet_clipped hread (by decide) hwindow).2.1 (by decide) hlast
  obtain ⟨hiff, hstops, -⟩ := hinside (UInt64.size - 2) (by decide)
  obtain ⟨-, -, hlargest⟩ := hinside (UInt64.size - 1) (by decide)
  refine ⟨by decide, by decide, by decide, fun h => ?_,
    hstops.2 (by decide), hlargest rfl .wraps⟩
  rw [← hclipped, hiff] at h
  exact absurd h (by decide)

end Translation

end TranslationAudit
