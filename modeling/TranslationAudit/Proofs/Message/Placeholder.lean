import Mathlib.Data.String.Basic
import TranslationAudit.Proofs.Collection.Dict
import TranslationAudit.Proofs.Collection.SortedMap
import TranslationAudit.Proofs.Text.Ascii
import TranslationAudit.Proofs.Text.Cut
import TranslationAudit.Reconcile

/-! # Placeholders that are used

* `UsesName`: a text holds a name between braces, wherever it stands in the text.
* `mem_placeholdersFrom`: the scan from the left passes over no name that is used, since the braces
  of two placeholders never overlap.
* `detectMismatch_exact`: a mismatch lists the names that are used and not passed.
-/

namespace TranslationAudit

variable {c : Char} {s r name : List Char}

/-! ## Names -/

/-- The characters of the names of placeholders. -/
def IsNameChar (c : Char) : Prop :=
  ('A' ≤ c ∧ c ≤ 'Z') ∨ ('a' ≤ c ∧ c ≤ 'z') ∨ ('0' ≤ c ∧ c ≤ '9') ∨ c ∈ ['_', '.', ':', '-']

theorem isPlaceholderChar_iff : isPlaceholderChar c = true ↔ IsNameChar c := by
  delta isPlaceholderChar IsNameChar Char.isAlphanum Char.isAlpha Char.isUpper Char.isLower
    Char.isDigit
  simp only [Bool.or_eq_true, Bool.and_eq_true, decide_eq_true_eq, List.mem_cons, List.not_mem_nil,
    or_false, or_assoc]
  rfl

theorem brace_not_mem (h : ∀ c ∈ name, isPlaceholderChar c = true) :
    '\x7b' ∉ name ++ ['\x7d'] := by
  rw [List.mem_append, List.mem_singleton]
  rintro (hmem | heq)
  · cases h _ hmem
  · cases heq

/-! ## One placeholder -/

theorem placeholderAt?_eq_some_iff :
    placeholderAt? s = some name ↔
      (name ≠ [] ∧ ∀ c ∈ name, isPlaceholderChar c = true) ∧
        ∃ rest, s = '\x7b' :: (name ++ '\x7d' :: rest) := by
  constructor
  · intro h
    unfold placeholderAt? at h
    split at h
    · cases h
    · next c r =>
      simp only [Option.ite_none_right_eq_some, Bool.and_eq_true, decide_eq_true_eq,
        Bool.not_eq_true', List.isEmpty_eq_false_iff, Option.some.injEq] at h
      obtain ⟨⟨⟨rfl, hne⟩, hclosed⟩, rfl⟩ := h
      obtain ⟨rest, hrest⟩ := List.head?_eq_some_iff.1 hclosed
      refine ⟨⟨hne, List.all_eq_true.1 List.all_takeWhile⟩, rest, ?_⟩
      rw [← hrest, List.takeWhile_append_dropWhile]
  · rintro ⟨⟨hne, hchars⟩, rest, rfl⟩
    have hend : isPlaceholderChar '\x7d' = false := by decide
    simp [placeholderAt?, Text.takeWhile_append_cons hchars hend,
      Text.dropWhile_append_cons hchars hend, hne]

/-! ## All placeholders -/

/-- Behind the brace that opens a placeholder the next one opens behind the brace that closes it. -/
theorem length_le_of_append_eq {u v w : List Char} (h : ∀ c ∈ name, isPlaceholderChar c = true)
    (heq : name ++ '\x7d' :: v = u ++ '\x7b' :: w) : name.length + 1 ≤ u.length := by
  rw [List.append_cons] at heq
  obtain ⟨a, hu, -⟩ | ⟨b, hname, hw⟩ := List.append_eq_append_iff.1 heq
  · simp [hu]
  · cases b with
    | nil =>
      have hlength := congrArg List.length hname
      simp at hlength
      omega
    | cons d b =>
      obtain ⟨rfl, -⟩ := List.cons_eq_cons.1 hw
      have hmem : '\x7b' ∈ name ++ ['\x7d'] := hname ▸ by simp
      exact absurd hmem (brace_not_mem h)

theorem mem_placeholdersFrom {passed : Nat} :
    name ∈ placeholdersFrom passed s ↔
      (name ≠ [] ∧ ∀ c ∈ name, isPlaceholderChar c = true) ∧
        ∃ u v, passed ≤ u.length ∧ s = u ++ '\x7b' :: (name ++ '\x7d' :: v) := by
  fun_induction placeholdersFrom passed s with
  | case1 => simp
  | case2 passed c r ih =>
    rw [ih]
    refine and_congr_right fun _ => ⟨?_, ?_⟩
    · rintro ⟨u, v, hu, rfl⟩
      exact ⟨c :: u, v, Nat.succ_le_succ hu, rfl⟩
    · rintro ⟨u, v, hu, heq⟩
      cases u with
      | nil => cases hu
      | cons d u => exact ⟨u, v, Nat.le_of_succ_le_succ hu, (List.cons_eq_cons.1 heq).2⟩
  | case3 c r found hfound ih =>
    obtain ⟨⟨-, hchars⟩, rest, hs⟩ := placeholderAt?_eq_some_iff.1 hfound
    rw [List.mem_cons, ih]
    constructor
    · rintro (rfl | ⟨hname, u, v, -, rfl⟩)
      · obtain ⟨hname, rest, hs⟩ := placeholderAt?_eq_some_iff.1 hfound
        exact ⟨hname, [], rest, Nat.zero_le _, hs⟩
      · exact ⟨hname, c :: u, v, Nat.zero_le _, rfl⟩
    · rintro ⟨hname, u, v, -, heq⟩
      cases u with
      | nil =>
        have hat := placeholderAt?_eq_some_iff.2 ⟨hname, v, heq⟩
        exact .inl (Option.some.inj (hat.symm.trans hfound))
      | cons d u =>
        have hr := (List.cons_eq_cons.1 heq).2
        have hgap := length_le_of_append_eq hchars ((List.cons_eq_cons.1 hs).2.symm.trans hr)
        exact .inr ⟨hname, u, v, hgap, hr⟩
  | case4 c r hnone ih =>
    rw [ih]
    refine and_congr_right fun hname => ⟨?_, ?_⟩
    · rintro ⟨u, v, -, rfl⟩
      exact ⟨c :: u, v, Nat.zero_le _, rfl⟩
    · rintro ⟨u, v, -, heq⟩
      cases u with
      | nil =>
        have hat := placeholderAt?_eq_some_iff.2 ⟨hname, v, heq⟩
        rw [hat] at hnone
        cases hnone
      | cons d u => exact ⟨u, v, Nat.zero_le _, (List.cons_eq_cons.1 heq).2⟩

/-! ## Names that are used -/

/-- A text uses a name if the name stands between braces in it. -/
structure UsesName (text name : String) : Prop where
  ne_empty : name ≠ ""
  chars : ∀ c ∈ name.toList, IsNameChar c
  occurs : (placeholder name).toList <:+: text.toList

theorem mem_placeholderNames {text name : String} :
    name ∈ placeholderNames text ↔ UsesName text name := by
  rw [placeholderNames, mem_ascending, Text.mem_map_ofList, placeholders, mem_placeholdersFrom]
  simp only [isPlaceholderChar_iff]
  constructor
  · rintro ⟨⟨hne, hchars⟩, u, v, -, htext⟩
    exact ⟨by simpa using hne, hchars, u, v, by simp [placeholder, htext]⟩
  · rintro ⟨hne, hchars, u, v, htext⟩
    refine ⟨⟨by simpa using hne, hchars⟩, u, v, Nat.zero_le _, ?_⟩
    simpa [placeholder] using htext.symm

/-- An entry uses the names that its source or its target uses. -/
def Catalog.Entry.UsesName (e : Catalog.Entry) (name : String) : Prop :=
  ∃ text, (e.source = some text ∨ e.target = some text) ∧ TranslationAudit.UsesName text name

theorem Catalog.Entry.mem_usedNames {e : Catalog.Entry} {name : String} :
    name ∈ e.usedNames ↔ e.UsesName name := by
  simp [usedNames, UsesName, mem_placeholderNames, or_and_right, exists_or]

/-- The names that are used where a reference meets an entry: those of the entry and those of the
fallback. -/
def Reference.UsesName (r : Reference) (entry : Option Catalog.Entry) (name : String) : Prop :=
  (∃ e ∈ entry, e.UsesName name) ∨ ∃ text ∈ r.fallback, TranslationAudit.UsesName text name

theorem pairwise_lt_ascending (xs : List String) : (ascending xs).Pairwise (· < ·) :=
  (pairwise_ascending xs).imp compare_lt_iff_lt.1

/-- There is a mismatch unless all names that are used are passed. It lists the names that are used
and not passed, and those that the entry uses, both ascending. -/
theorem detectMismatch_exact (r : Reference) (locale : String) (key : Key)
    (entry : Option Catalog.Entry) :
    (detectMismatch r locale key entry = none ↔
        ∀ name, r.UsesName entry name → name ∈ r.placeholders.keys) ∧
      ∀ m ∈ detectMismatch r locale key entry,
        m.missing.Pairwise (· < ·) ∧
        (∀ name, name ∈ m.missing ↔ r.UsesName entry name ∧ name ∉ r.placeholders.keys) ∧
        m.used.Pairwise (· < ·) ∧
        ∀ name, name ∈ m.used ↔ ∃ e ∈ entry, e.UsesName name := by
  have hused (name : String) :
      name ∈ ascending (entry.toList.flatMap Catalog.Entry.usedNames) ↔
        ∃ e ∈ entry, e.UsesName name := by
    simp [mem_ascending, Catalog.Entry.mem_usedNames]
  have hascending := pairwise_lt_ascending (entry.toList.flatMap Catalog.Entry.usedNames)
  unfold detectMismatch
  dsimp only
  generalize ascending (entry.toList.flatMap Catalog.Entry.usedNames) = used at hused hascending ⊢
  have hmissing (name : String) :
      name ∈ (ascending (used ++ r.fallback.toList.flatMap placeholderNames)).filter
          (fun name => !r.placeholders.contains name) ↔
        r.UsesName entry name ∧ name ∉ r.placeholders.keys := by
    rw [List.mem_filter, mem_ascending, List.mem_append, hused, Bool.not_eq_true',
      ← Bool.not_eq_true, Dict.contains_iff, Reference.UsesName]
    simp [mem_placeholderNames]
  constructor
  · rw [ite_eq_left_iff]
    simp only [List.isEmpty_iff, List.eq_nil_iff_forall_not_mem, hmissing, not_and_not_right,
      reduceCtorEq, imp_false, not_not]
  · intro m hm
    rw [Option.mem_def, Option.ite_none_left_eq_some, Option.some.injEq] at hm
    obtain ⟨-, rfl⟩ := hm
    exact ⟨(pairwise_lt_ascending _).filter _, hmissing, hascending, hused⟩

/-- Braces that stand side by side, a name that is none, and one that is passed. -/
theorem detectMismatch_exact_adjacent :
    let r : Reference :=
      { key := ⟨"Acme.Site", "Main", "hello"⟩, format := .php, file := "A.php", line := 1
        fallback := some "\x7bn\x7d\x7bm\x7d \x7bnot valid\x7d \x7b\x7d"
        placeholders := ⟨[("a", "$a")]⟩ }
    let e : Catalog.Entry :=
      { locale := "de", key := r.key, file := "Main.xlf"
        source := some "\x7bb\x7d and \x7b\x7ba\x7d\x7d and \x7bb\x7d"
        target := some "\x7bx.y:z-1\x7d" }
    ∃ m, detectMismatch r "de" r.key (some e) = some m ∧
      m.missing = ["b", "m", "n", "x.y:z-1"] ∧ m.used = ["a", "b", "x.y:z-1"] ∧
      (∀ name, name ∈ m.missing ↔ r.UsesName (some e) name ∧ name ∉ r.placeholders.keys) ∧
      ∀ name, name ∈ m.used ↔ e.UsesName name := by
  intro r e
  obtain ⟨m, hm, hmissing, hused⟩ : ∃ m, detectMismatch r "de" r.key (some e) = some m ∧
      m.missing = ["b", "m", "n", "x.y:z-1"] ∧ m.used = ["a", "b", "x.y:z-1"] :=
    ⟨_, rfl, by decide, by decide⟩
  obtain ⟨-, hmissing', -, hused'⟩ := (detectMismatch_exact r "de" r.key (some e)).2 m hm
  exact ⟨m, hm, hmissing, hused, hmissing', by simpa using hused'⟩

end TranslationAudit
