import Mathlib.Data.List.DropRight
import TranslationAudit.Text.Blank

/-! # Texts without some characters at their ends

* `stripWhile_of_ends`: a text whose ends are to be kept stays as it is.
* `of_head?_stripWhile`, `of_getLast?_stripWhile`: what is left has such ends.
* `mem_stripWhile`: no other character is taken off.
* `stripWhile_append_cons`: around a character that is kept the ends are stripped on their own.
-/

namespace TranslationAudit.Text

variable {p : Char → Bool} {s : List Char} {c : Char}

theorem dropEndWhile_eq (p : Char → Bool) (s : List Char) : dropEndWhile p s = s.rdropWhile p := rfl

theorem stripWhile_of_ends (hhead : ∀ c, s.head? = some c → p c = false)
    (hlast : ∀ c, s.getLast? = some c → p c = false) : stripWhile p s = s := by
  have hstart : s.dropWhile p = s := by
    cases s with
    | nil => rfl
    | cons c s => rw [List.dropWhile_cons, if_neg (by simp [hhead c rfl])]
  rw [stripWhile, hstart, dropEndWhile_eq, List.rdropWhile_eq_self_iff]
  intro hne
  simp [hlast _ (List.getLast?_eq_some_getLast hne)]

theorem stripWhile_isInfix (p : Char → Bool) (s : List Char) : stripWhile p s <:+: s := by
  have hfront : stripWhile p s <+: s.dropWhile p := List.rdropWhile_prefix p _
  exact hfront.isInfix.trans (List.dropWhile_suffix p).isInfix

theorem of_head?_stripWhile (h : (stripWhile p s).head? = some c) : p c = false := by
  obtain ⟨rest, hrest⟩ := List.rdropWhile_prefix p (s.dropWhile p)
  have hdrop : (s.dropWhile p).head? = some c := by
    rw [← hrest, List.head?_append, ← dropEndWhile_eq, ← stripWhile, h, Option.some_or]
  have hnot := List.head?_dropWhile_not p s
  rw [hdrop] at hnot
  exact hnot

theorem of_getLast?_dropEndWhile (h : (dropEndWhile p s).getLast? = some c) : p c = false := by
  rw [dropEndWhile_eq] at h
  have hne : s.rdropWhile p ≠ [] := by
    intro hempty
    simp [hempty] at h
  have hlast := List.rdropWhile_last_not p _ hne
  rw [List.getLast?_eq_some_getLast hne, Option.some.injEq] at h
  simpa [h] using hlast

theorem of_getLast?_stripWhile (h : (stripWhile p s).getLast? = some c) : p c = false :=
  of_getLast?_dropEndWhile h

theorem mem_stripWhile (h : c ∈ s) (hc : p c = false) : c ∈ stripWhile p s := by
  have mem_dropWhile {t : List Char} (h : c ∈ t) : c ∈ t.dropWhile p := by
    rw [← List.takeWhile_append_dropWhile (p := p) (l := t), List.mem_append] at h
    refine h.resolve_left fun hfront => ?_
    rw [List.all_eq_true.1 List.all_takeWhile c hfront] at hc
    cases hc
  rw [stripWhile, dropEndWhile, List.mem_reverse]
  exact mem_dropWhile (List.mem_reverse.2 (mem_dropWhile h))

theorem dropWhile_append_of_neg (hc : p c = false) (s r : List Char) :
    (s ++ c :: r).dropWhile p = s.dropWhile p ++ c :: r := by
  induction s with
  | nil => simp [hc]
  | cons d s ih => cases hd : p d <;> simp [hd, ih]

theorem dropEndWhile_append_of_neg (hc : p c = false) (s r : List Char) :
    dropEndWhile p (s ++ c :: r) = s ++ c :: dropEndWhile p r := by
  have hreverse : (s ++ c :: r).reverse = r.reverse ++ c :: s.reverse := by simp
  rw [dropEndWhile, hreverse, dropWhile_append_of_neg hc, dropEndWhile]
  simp

theorem stripWhile_append_cons (hc : p c = false) (s r : List Char) :
    stripWhile p (s ++ c :: r) = s.dropWhile p ++ c :: dropEndWhile p r := by
  rw [stripWhile, dropWhile_append_of_neg hc, dropEndWhile_append_of_neg hc]

end TranslationAudit.Text
