import Mathlib.Data.List.Induction
import TranslationAudit.Proofs.Collect.Argument

/-! # What is taken for a literal

* `Fusion.IsString`: a single string in quotes.
* `Fusion.Overruns`: texts that end with a quote which does not close the first string.
* `Fusion.closed_or_overruns`, `Fusion.Closed.not_overruns`: of the texts that end with the quote in
  which they stand, each is one or the other.
* `Fusion.literal_iff_quotes`: a literal is told by its first and its last character, so that it
  is a string or overruns one.
-/

namespace TranslationAudit.Fusion

variable {q c : Char} {s t r : List Char}

/-- A single string in quotes. -/
def IsString (s : List Char) : Prop :=
  ∃ q t, isQuote q = true ∧ Closed q t ∧ s = q :: t

/-- What stands in a quote and does not close it. -/
inductive Inside (q : Char) : List Char → Prop
  | nil : Inside q []
  | escaped (c : Char) {s : List Char} : Inside q s → Inside q ('\\' :: c :: s)
  | char {c : Char} {s : List Char} : c ≠ q → c ≠ '\\' → Inside q s → Inside q (c :: s)

/-- What follows an opening quote and ends with this quote, without being a string: the string is
closed before the end, or the last quote is escaped. -/
inductive Overruns (q : Char) : List Char → Prop
  | closed {t : List Char} (r : List Char) : Closed q t → Overruns q (t ++ (r ++ [q]))
  | escaped {t : List Char} : Inside q t → Overruns q (t ++ ['\\', q])

namespace Overruns

theorem cons_escaped (c : Char) (h : Overruns q s) : Overruns q ('\\' :: c :: s) := by
  cases h with
  | closed r ht => exact .closed r (ht.escaped c)
  | escaped ht => exact .escaped (ht.escaped c)

theorem cons_char (hq : c ≠ q) (hc : c ≠ '\\') (h : Overruns q s) : Overruns q (c :: s) := by
  cases h with
  | closed r ht => exact .closed r (ht.char hq hc)
  | escaped ht => exact .escaped (ht.char hq hc)

end Overruns

/-- A text that ends with its quote is a string or overruns one. -/
theorem closed_or_overruns (hq : q ≠ '\\') (h : t.getLast? = some q) :
    Closed q t ∨ Overruns q t := by
  -- a backslash takes the next character along, so the induction goes on behind both
  induction t using List.twoStepInduction with
  | nil => cases h
  | singleton c =>
    cases h
    exact .inl .close
  | cons_cons c d s ihs ih =>
    rw [List.getLast?_cons_cons] at h
    by_cases hescape : c = '\\'
    · subst hescape
      cases s with
      | nil =>
        cases h
        exact .inr (.escaped .nil)
      | cons e s =>
        rw [List.getLast?_cons_cons] at h
        exact (ihs h).imp (.escaped d) (.cons_escaped d)
    · by_cases hclose : c = q
      · subst hclose
        obtain ⟨r, hr⟩ := List.getLast?_eq_some_iff.1 h
        rw [hr]
        exact .inr (.closed r .close)
      · exact (ih d h).imp (.char hclose hescape) (.cons_char hclose hescape)

namespace Closed

theorem eq_nil_of_quote (hq : q ≠ '\\') (h : Closed q (q :: s)) : s = [] := by
  cases h with
  | close => rfl
  | escaped => exact absurd rfl hq
  | char hne => exact absurd rfl hne

theorem of_escaped (h : Closed q ('\\' :: c :: s)) : Closed q s := by
  cases h with
  | escaped _ h => exact h
  | char _ hne => exact absurd rfl hne

theorem of_char (hne : c ≠ q) (hescape : c ≠ '\\') (h : Closed q (c :: s)) : Closed q s := by
  cases h with
  | close => exact absurd rfl hne
  | escaped => exact absurd rfl hescape
  | char _ _ h => exact h

/-- No string begins another one. -/
theorem eq_nil_of_append (ht : Closed q t) (hq : q ≠ '\\') (h : Closed q (t ++ r)) : r = [] := by
  induction ht with
  | close => exact h.eq_nil_of_quote hq
  | escaped c _ ih => exact ih h.of_escaped
  | char hne hescape _ ih => exact ih (h.of_char hne hescape)

end Closed

theorem Inside.not_closed (ht : Inside q t) : ¬Closed q (t ++ ['\\', q]) := by
  intro h
  induction ht with
  | nil => cases h.of_escaped
  | escaped c _ ih => exact ih h.of_escaped
  | char hne hescape _ ih => exact ih (h.of_char hne hescape)

theorem Closed.not_overruns (h : Closed q s) (hq : q ≠ '\\') : ¬Overruns q s := by
  rintro (⟨r, ht⟩ | ht)
  · simpa using ht.eq_nil_of_append hq h
  · exact ht.not_closed h

theorem literal?_eq_some_iff {v : String} :
    literal? s = some v ↔ ∃ q t, isQuote q = true ∧ Text.trim s = q :: (t ++ [q]) ∧
      v = String.ofList (unescape t) := by
  rw [literal?]
  cases htrim : Text.trim s with
  | nil => simp
  | cons q r =>
    dsimp only
    constructor
    · intro h
      rw [Option.ite_none_right_eq_some, Bool.and_eq_true, decide_eq_true_iff] at h
      obtain ⟨⟨hquote, hlast⟩, hv⟩ := h
      obtain ⟨t, rfl⟩ := List.getLast?_eq_some_iff.1 hlast
      rw [List.dropLast_concat, Option.some.injEq] at hv
      exact ⟨q, t, hquote, rfl, hv.symm⟩
    · rintro ⟨q', t, hquote, heq, rfl⟩
      cases heq
      simp [hquote]

/-- A text is taken for a literal if it is in quotes of one kind, after trimming. All strings are,
and whatever else is overruns a string. -/
theorem literal_iff_quotes (s : List Char) :
    (∀ v, literal? s = some v ↔ ∃ q t, isQuote q = true ∧ Text.trim s = q :: (t ++ [q]) ∧
        v = String.ofList (unescape t)) ∧
      (IsString (Text.trim s) ↔
        (literal? s).isSome = true ∧ ¬∃ q t, Text.trim s = q :: t ∧ Overruns q t) := by
  refine ⟨fun v => literal?_eq_some_iff, ?_, ?_⟩
  · rintro ⟨q, t, hquote, hclosed, htrim⟩
    obtain ⟨r, rfl⟩ := List.getLast?_eq_some_iff.1 hclosed.getLast?
    refine ⟨?_, ?_⟩
    · rw [literal?_eq_some_iff.2 ⟨q, r, hquote, htrim, rfl⟩]
      rfl
    · rintro ⟨q', t, heq, hoverruns⟩
      rw [htrim, List.cons.injEq] at heq
      obtain ⟨rfl, rfl⟩ := heq
      exact hclosed.not_overruns (ne_backslash_of_isQuote hquote) hoverruns
  · rintro ⟨hsome, hnot⟩
    obtain ⟨v, hv⟩ := Option.isSome_iff_exists.1 hsome
    obtain ⟨q, t, hquote, htrim, -⟩ := literal?_eq_some_iff.1 hv
    refine ⟨q, t ++ [q], hquote, ?_, htrim⟩
    have hends := closed_or_overruns (ne_backslash_of_isQuote hquote) (t := t ++ [q])
      List.getLast?_concat
    exact hends.resolve_right fun hoverruns => hnot ⟨q, t ++ [q], htrim, hoverruns⟩

/-- Two strings with something between them are taken for one literal, and so for an identifier. -/
theorem concatenation_is_literal :
    (literal? "'a' + 'b'".toList).isSome = true ∧ ¬IsString (Text.trim "'a' + 'b'".toList) ∧
      (RawCall.ofArguments false "'a' + 'b', null".toList).id = some "a' + 'b" := by
  refine ⟨by decide +kernel, ?_, by decide +kernel⟩
  rintro ⟨q, t, -, hclosed, htrim⟩
  have htext : Text.trim "'a' + 'b'".toList =
      '\'' :: ("a'".toList ++ (" + 'b".toList ++ ['\''])) := by
    decide +kernel
  rw [htext, List.cons.injEq] at htrim
  obtain ⟨rfl, rfl⟩ := htrim
  have hfirst : Closed '\'' "a'".toList := .char (by decide) (by decide) .close
  exact hclosed.not_overruns (by decide) (.closed _ hfirst)

end TranslationAudit.Fusion
