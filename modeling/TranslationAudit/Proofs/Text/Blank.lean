import Mathlib.Data.List.TakeWhile
import TranslationAudit.Proofs.Text.Strip

/-! # Blanks around a text

* `allBlank_nil`, `allBlank_append`: blank texts joined.
* `stripWhile_append_left`, `stripWhile_append_right`: what is stripped makes no difference.
* `trim_blank_append`, `trim_append_blank`: outer blanks make no difference to a trimmed text.
* `exists_blanks`: trimming takes off outer blanks only.
* `trim_trim`: a trimmed text has no outer blanks.
* `trim_trimStart`, `trim_trimEnd`: taking blanks off one end first makes no difference.
-/

namespace TranslationAudit.Text

theorem allBlank_nil : allBlank [] = true := rfl

theorem allBlank_append (s t : List Char) : allBlank (s ++ t) = (allBlank s && allBlank t) := by
  simp [allBlank]

theorem stripWhile_append_left {p : Char → Bool} {u : List Char} (h : ∀ c ∈ u, p c = true)
    (s : List Char) : stripWhile p (u ++ s) = stripWhile p s := by
  rw [stripWhile, List.dropWhile_append_of_pos h, ← stripWhile]

theorem dropEndWhile_append_of_pos {p : Char → Bool} {u : List Char} (h : ∀ c ∈ u, p c = true)
    (s : List Char) : dropEndWhile p (s ++ u) = dropEndWhile p s := by
  have hu : ∀ c ∈ u.reverse, p c = true := fun c hc => h c (List.mem_reverse.1 hc)
  rw [dropEndWhile, List.reverse_append, List.dropWhile_append_of_pos hu, ← dropEndWhile]

theorem stripWhile_append_right {p : Char → Bool} {u : List Char} (h : ∀ c ∈ u, p c = true)
    (s : List Char) : stripWhile p (s ++ u) = stripWhile p s := by
  by_cases hs : s.dropWhile p = []
  · have hboth : (s ++ u).dropWhile p = [] := by
      rw [List.dropWhile_eq_nil_iff] at hs ⊢
      intro c hc
      exact (List.mem_append.1 hc).elim (hs c) (h c)
    rw [stripWhile, stripWhile, hs, hboth]
  · have hdrop : (s ++ u).dropWhile p = s.dropWhile p ++ u := by
      rw [List.dropWhile_append, if_neg]
      simpa using hs
    rw [stripWhile, stripWhile, hdrop, dropEndWhile_append_of_pos h]

theorem trim_blank_append {u : List Char} (h : allBlank u = true) (s : List Char) :
    trim (u ++ s) = trim s :=
  stripWhile_append_left (List.all_eq_true.1 h) s

theorem trim_append_blank {u : List Char} (h : allBlank u = true) (s : List Char) :
    trim (s ++ u) = trim s :=
  stripWhile_append_right (List.all_eq_true.1 h) s

theorem trim_space (s : List Char) : trim (' ' :: s) = trim s := by
  rw [← List.singleton_append, trim_blank_append (by decide)]

/-- Trimming takes off outer blanks only. -/
theorem exists_blanks (s : List Char) :
    ∃ u v, allBlank u = true ∧ allBlank v = true ∧ s = u ++ trim s ++ v := by
  have hright (t : List Char) : ∃ v, allBlank v = true ∧ t = dropEndWhile isBlank t ++ v := by
    refine ⟨(t.reverse.takeWhile isBlank).reverse, ?_, ?_⟩
    · rw [allBlank, List.all_reverse]
      exact List.all_takeWhile
    · rw [dropEndWhile, ← List.reverse_append, List.takeWhile_append_dropWhile,
        List.reverse_reverse]
  obtain ⟨v, hv, hs⟩ := hright (s.dropWhile isBlank)
  refine ⟨s.takeWhile isBlank, v, List.all_takeWhile, hv, ?_⟩
  rw [List.append_assoc, trim, stripWhile, ← hs, List.takeWhile_append_dropWhile]

theorem trim_trim (s : List Char) : trim (trim s) = trim s := by
  obtain ⟨u, v, hu, hv, hs⟩ := exists_blanks s
  have houter : trim (u ++ trim s ++ v) = trim (trim s) := by
    rw [trim_append_blank hv, trim_blank_append hu]
  rw [← houter, ← hs]

theorem allBlank_trim (s : List Char) : allBlank (trim s) = allBlank s := by
  obtain ⟨u, v, hu, hv, hs⟩ := exists_blanks s
  have houter : allBlank (u ++ trim s ++ v) = allBlank (trim s) := by
    rw [allBlank_append, allBlank_append, hu, hv, Bool.true_and, Bool.and_true]
  rw [← houter, ← hs]

/-! ## One end -/

theorem trim_trimStart (s : List Char) : trim (trimStart s) = trim s := by
  have hblank : allBlank (s.takeWhile isBlank) = true := List.all_takeWhile
  rw [← trim_blank_append hblank, trimStart, List.takeWhile_append_dropWhile]

theorem allBlank_rtakeWhile (s : List Char) : allBlank (s.rtakeWhile isBlank) = true := by
  rw [allBlank, List.all_eq_true]
  exact fun _ => List.mem_rtakeWhile_imp

theorem trimEnd_append_rtakeWhile (s : List Char) : trimEnd s ++ s.rtakeWhile isBlank = s := by
  rw [trimEnd, dropEndWhile_eq, List.rdropWhile_append_rtakeWhile]

theorem trim_trimEnd (s : List Char) : trim (trimEnd s) = trim s := by
  rw [← trim_append_blank (allBlank_rtakeWhile s), trimEnd_append_rtakeWhile]

end TranslationAudit.Text
