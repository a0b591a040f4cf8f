import Mathlib.Data.List.Induction
import TranslationAudit.Proofs.Path

/-! # Parents of paths

* `Path.components_of_split`: the components of a path by its pieces between slashes.
* `Path.components_parent`: the components of the parent.
-/

namespace TranslationAudit

theorem Text.split_free {p : Char → Bool} {s piece : List Char} (h : piece ∈ split p s) :
    ∀ c ∈ piece, p c = false := by
  induction s generalizing piece with
  | nil =>
    rw [List.mem_singleton.1 h]
    simp
  | cons c s ih =>
    rw [split] at h
    split at h
    · rcases List.mem_cons.1 h with rfl | h
      · simp
      · exact ih h
    · next hc =>
      obtain ⟨first, rest, hsplit⟩ := List.exists_cons_of_ne_nil (split_ne_nil p s)
      rw [hsplit] at h ih
      rcases List.mem_cons.1 h with rfl | h
      · intro d hd
        rcases List.mem_cons.1 hd with rfl | hd
        · simpa using hc
        · exact ih List.mem_cons_self d hd
      · exact ih (List.mem_cons_of_mem _ h)

namespace Path

/-! ## Pieces -/

/-- The steps that pieces between slashes stand for. -/
def stepsOf (pieces : List (List Char)) : List Component :=
  (pieces.filter fun s => s ≠ [] && s ≠ ['.']).map component

/-- What the first piece of a path stands for. -/
def opening (first : List Char) (rest : List (List Char)) : List Component :=
  if first = [] then (if rest = [] then [] else [.root])
  else if first = ['.'] then [.current]
  else [component first]

theorem components_of_split {p : String} {first : List Char} {rest : List (List Char)}
    (h : Text.split (· = '/') p.toList = first :: rest) :
    components p = opening first rest ++ stepsOf rest := by
  have habsolute : isAbsolute p = true ↔ first = [] ∧ rest ≠ [] := by
    unfold isAbsolute
    cases hp : p.toList with
    | nil =>
      rw [hp] at h
      cases h
      simp
    | cons c s =>
      rw [hp, Text.split] at h
      by_cases hc : c = '/'
      · simp only [hc, decide_true, if_true, List.cons.injEq] at h
        simp [hc, ← h.1, ← h.2, Text.split_ne_nil]
      · obtain ⟨piece, others, hs⟩ := List.exists_cons_of_ne_nil (Text.split_ne_nil (· = '/') s)
        simp only [hc, decide_false, Bool.false_eq_true, if_false, hs, List.cons.injEq] at h
        simp [hc, ← h.1]
  unfold components opening stepsOf
  simp only [h, habsolute, List.head?_cons, List.filter_cons, Option.some.injEq]
  by_cases hempty : first = []
  · by_cases hrest : rest = [] <;> simp [hempty, hrest]
  · by_cases hcurrent : first = ['.'] <;> simp [hempty, hcurrent]

theorem stepsOf_append (pieces others : List (List Char)) :
    stepsOf (pieces ++ others) = stepsOf pieces ++ stepsOf others := by
  simp [stepsOf]

theorem stepsOf_singleton (piece : List Char) :
    stepsOf [piece] = if isFiller piece then [] else [component piece] := by
  unfold stepsOf isFiller
  by_cases hempty : piece = []
  · simp [hempty]
  · by_cases hcurrent : piece = ['.'] <;> simp [hempty, hcurrent]

/-! ## Without the pieces at the end that are no steps -/

theorem stepsOf_dropFillers (pieces : List (List Char)) :
    stepsOf (dropFillers pieces) = stepsOf pieces := by
  induction pieces using List.reverseRecOn with
  | nil => rfl
  | append_singleton pieces piece ih =>
    unfold dropFillers at ih ⊢
    rw [List.reverse_append, List.reverse_singleton, List.singleton_append, List.dropWhile_cons]
    split
    · next hfiller => rw [ih, stepsOf_append, stepsOf_singleton, if_pos hfiller, List.append_nil]
    · simp

theorem mem_of_mem_dropFillers {pieces : List (List Char)} {piece : List Char}
    (h : piece ∈ dropFillers pieces) : piece ∈ pieces :=
  List.mem_reverse.1 ((List.dropWhile_suffix isFiller).subset (List.mem_reverse.1 h))

theorem dropFillers_cons {first : List Char} (h : isFiller first = false)
    (pieces : List (List Char)) : dropFillers (first :: pieces) = first :: dropFillers pieces := by
  unfold dropFillers
  rw [List.reverse_cons, List.dropWhile_append]
  split
  · next hempty => simp [List.isEmpty_iff.1 hempty, h]
  · simp

theorem isFiller_getLast_dropFillers {pieces : List (List Char)} (h : dropFillers pieces ≠ []) :
    isFiller ((dropFillers pieces).getLast h) = false := by
  unfold dropFillers at h ⊢
  rw [List.getLast_reverse]
  exact List.head_dropWhile_not isFiller _

/-! ## Parents -/

theorem components_joinPieces {first : List Char} {rest : List (List Char)}
    (h : ∀ piece ∈ first :: rest, ∀ c ∈ piece, decide (c = '/') = false) :
    components (joinPieces (first :: rest)) = opening first rest ++ stepsOf rest := by
  apply components_of_split
  rw [joinPieces, String.toList_ofList]
  exact Text.split_intercalate (by simp) (List.cons_ne_nil _ _) h

theorem opening_of_filler {first : List Char} (h : isFiller first = true)
    (rest : List (List Char)) (s : String) : .name s ∉ opening first rest := by
  unfold isFiller at h
  unfold opening
  by_cases hempty : first = []
  · by_cases hrest : rest = [] <;> simp [hempty, hrest]
  · have hcurrent : first = ['.'] := by simpa [hempty] using h
    simp [hcurrent]

theorem opening_of_step {first : List Char} (h : isFiller first = false)
    (rest : List (List Char)) : opening first rest = [component first] := by
  unfold isFiller at h
  simp only [Bool.or_eq_false_iff, decide_eq_false_iff_not] at h
  rw [opening, if_neg h.1, if_neg h.2]

theorem opening_congr (first : List Char) {rest others : List (List Char)} (hrest : rest ≠ [])
    (hothers : others ≠ []) : opening first others = opening first rest := by
  simp [opening, hrest, hothers]

section

variable {p : String} {first last : List Char} {rest steps : List (List Char)}

theorem parent?_of_no_steps (hsplit : Text.split (· = '/') p.toList = first :: rest)
    (h : dropFillers rest = []) : (parent? p).getD "" = "" := by
  unfold parent?
  rw [hsplit]
  simp only [h]
  split
  · split <;> rfl
  · rfl

theorem parent?_of_steps (hsplit : Text.split (· = '/') p.toList = first :: rest)
    (h : dropFillers rest = steps ++ [last]) :
    parent? p = some
      (if isFiller first then
        if dropFillers steps = [] then (if first = ['.'] then "." else "/")
        else joinPieces (first :: dropFillers steps)
      else joinPieces (first :: dropFillers steps)) := by
  obtain ⟨step, more, hcons⟩ := List.exists_cons_of_ne_nil (List.concat_ne_nil last steps)
  have hdrop : (step :: more).dropLast = steps := by rw [← hcons, List.dropLast_concat]
  unfold parent?
  rw [hsplit]
  simp only [h, hcons, hdrop]
  cases hfiller : isFiller first with
  | true =>
    simp only [if_true]
    cases dropFillers steps <;> simp
  | false => simp only [Bool.false_eq_true, if_false, dropFillers_cons hfiller]

/-- What is left in front of the last step. -/
theorem components_parent_of_steps (hsplit : Text.split (· = '/') p.toList = first :: rest)
    (h : dropFillers rest = steps ++ [last]) :
    components ((parent? p).getD "") = opening first rest ++ stepsOf steps := by
  have hfree : ∀ piece ∈ first :: dropFillers steps, ∀ c ∈ piece, decide (c = '/') = false := by
    intro piece hpiece
    have hmem : piece ∈ first :: rest := by
      rcases List.mem_cons.1 hpiece with rfl | hpiece
      · exact List.mem_cons_self
      · refine List.mem_cons_of_mem _ (mem_of_mem_dropFillers ?_)
        rw [h]
        exact List.mem_append_left _ (mem_of_mem_dropFillers hpiece)
    rw [← hsplit] at hmem
    exact Text.split_free hmem
  have hrest : rest ≠ [] := by
    rintro rfl
    exact List.append_ne_nil_of_right_ne_nil steps (List.cons_ne_nil last []) h.symm
  rw [parent?_of_steps hsplit h, Option.getD_some, ← stepsOf_dropFillers steps]
  cases hfiller : isFiller first with
  | true =>
    simp only [if_true]
    by_cases hleft : dropFillers steps = []
    · rw [if_pos hleft, hleft]
      by_cases hcurrent : first = ['.']
      · simp only [hcurrent, if_true]
        rfl
      · have hempty : first = [] := by simpa [isFiller, hcurrent] using hfiller
        simp only [hempty, opening, hrest, if_true, if_false]
        rfl
    · rw [if_neg hleft, components_joinPieces hfree, opening_congr first hrest hleft]
  | false =>
    simp only [Bool.false_eq_true, if_false]
    rw [components_joinPieces hfree, opening_of_step hfiller, opening_of_step hfiller]

end

/-- The components of the parent are those of the path but for its last one. -/
theorem components_parent {p s : String} {front : List Component}
    (h : components p = front ++ [.name s]) : components ((parent? p).getD "") = front := by
  obtain ⟨first, rest, hsplit⟩ :=
    List.exists_cons_of_ne_nil (Text.split_ne_nil (· = '/') p.toList)
  rw [components_of_split hsplit, ← stepsOf_dropFillers rest] at h
  rcases (dropFillers rest).eq_nil_or_concat with hsteps | ⟨steps, last, hsteps⟩
  · -- there is one piece only, which is the name
    have hopening : opening first rest = front ++ [.name s] := by
      simpa [hsteps, stepsOf] using h
    rw [parent?_of_no_steps hsplit hsteps]
    cases hfiller : isFiller first with
    | true =>
      have hmem : .name s ∉ opening first rest := opening_of_filler hfiller rest s
      simp [hopening] at hmem
    | false =>
      rw [opening_of_step hfiller] at hopening
      obtain ⟨rfl, -⟩ := List.append_inj' (hopening.symm.trans (List.nil_append _).symm) rfl
      rfl
  · rw [List.concat_eq_append] at hsteps
    have hlast : isFiller last = false := by
      have hne : dropFillers rest ≠ [] := by simp [hsteps]
      simpa only [hsteps, List.getLast_concat] using isFiller_getLast_dropFillers hne
    rw [components_parent_of_steps hsplit hsteps]
    rw [hsteps, stepsOf_append, stepsOf_singleton, hlast, ← List.append_assoc] at h
    exact (List.append_inj' h rfl).1

end Path

end TranslationAudit
