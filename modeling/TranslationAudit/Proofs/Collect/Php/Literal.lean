import Mathlib.Data.List.Induction
import Mathlib.Data.List.Infix
import TranslationAudit.Collect.Php

/-! # Reading what was written in quotes

* `ReadsEscapes`: functions that read backslash escapes from left to right, each backslash together
  with the character behind it. `unescapeSingle` and `unescapeDouble` are such functions.
* `ReadsEscapes.flatMap`: what was written with escapes is read back.
* `ReadsEscapes.eq_self_iff`: the texts that stand for themselves.
* `ReadsEscapes.run`: each two backslashes of a run stand for one, and the last backslash of an odd
  run goes with the character behind it.
* `unescape_undoes_escape`: what this says of single quotes and of double quotes.
* `literal?_escape`: a literal has the text that was quoted as its value.
-/

namespace TranslationAudit.Php

variable {value? : Char → Option Char} {read : List Char → List Char}
variable {c d q : Char} {s t r front : List Char}

/-! ## Escapes -/

/-- What a backslash and the character behind it stand for: the value of this escape if it has one,
else the two characters themselves. -/
def escapeValue (value? : Char → Option Char) (c : Char) : List Char :=
  match value? c with
  | some d => [d]
  | none => ['\\', c]

theorem escapeValue_some (h : value? c = some d) : escapeValue value? c = [d] := by
  rw [escapeValue, h]

theorem escapeValue_none (h : value? c = none) : escapeValue value? c = ['\\', c] := by
  rw [escapeValue, h]

/-- Functions that read a text from left to right and take each backslash together with the
character behind it. A backslash at the end is kept. -/
structure ReadsEscapes (value? : Char → Option Char) (read : List Char → List Char) : Prop where
  nil : read [] = []
  last : read ['\\'] = ['\\']
  char {c : Char} (h : c ≠ '\\') (r : List Char) : read (c :: r) = c :: read r
  pair (c : Char) (r : List Char) : read ('\\' :: c :: r) = escapeValue value? c ++ read r
  backslash : value? '\\' = some '\\'

/-- Induction along the steps in which escapes are read. -/
@[elab_as_elim]
theorem escapesInduction {motive : List Char → Prop} (nil : motive []) (last : motive ['\\'])
    (char : ∀ c r, c ≠ '\\' → motive r → motive (c :: r))
    (pair : ∀ c r, motive r → motive ('\\' :: c :: r)) (s : List Char) : motive s := by
  induction s using List.twoStepInduction with
  | nil => exact nil
  | singleton c =>
    by_cases hc : c = '\\'
    · exact hc ▸ last
    · exact char c [] hc nil
  | cons_cons c d s ihs ih =>
    by_cases hc : c = '\\'
    · exact hc ▸ pair d s ihs
    · exact char c (d :: s) hc (ih d)

namespace ReadsEscapes

theorem ne_backslash (hread : ReadsEscapes value? read) (h : value? c = none) : c ≠ '\\' := by
  rintro rfl
  rw [hread.backslash] at h
  cases h

/-- A text of which each character is written as itself or as an escape that has it as its value. -/
theorem flatMap (hread : ReadsEscapes value? read) {write : Char → List Char}
    (hwrite : ∀ c, c ≠ '\\' ∧ write c = [c] ∨ ∃ e, value? e = some c ∧ write c = ['\\', e])
    (s : List Char) : read (s.flatMap write) = s := by
  induction s with
  | nil => exact hread.nil
  | cons c s ih =>
    rw [List.flatMap_cons]
    rcases hwrite c with ⟨hc, hplain⟩ | ⟨e, he, hescape⟩
    · rw [hplain, List.singleton_append, hread.char hc, ih]
    · rw [hescape, List.cons_append, List.singleton_append, hread.pair, escapeValue_some he, ih]
      rfl

/-! ## Texts that stand for themselves -/

theorem length_le (hread : ReadsEscapes value? read) (s : List Char) :
    (read s).length ≤ s.length := by
  induction s using escapesInduction with
  | nil => rw [hread.nil]
  | last => rw [hread.last]
  | char c r hc ih =>
    rw [hread.char hc, List.length_cons, List.length_cons]
    omega
  | pair c r ih =>
    have hvalue : (escapeValue value? c).length ≤ 2 := by
      rw [escapeValue]
      split <;> simp
    rw [hread.pair, List.length_append, List.length_cons, List.length_cons]
    omega

theorem pair_infix_cons_iff {e : Char} (h : c ≠ '\\') :
    ['\\', e] <:+: c :: r ↔ ['\\', e] <:+: r := by
  rw [List.infix_cons_iff, List.cons_prefix_cons]
  simp [Ne.symm h]

/-- A text stands for itself if and only if none of its backslashes stands before a character that
an escape has. -/
theorem eq_self_iff (hread : ReadsEscapes value? read) :
    read s = s ↔ ∀ c, ['\\', c] <:+: s → value? c = none := by
  induction s using escapesInduction with
  | nil => simp [hread.nil]
  | last => simp [hread.last, List.infix_cons_iff]
  | char c r hc ih =>
    rw [hread.char hc, List.cons_inj_right, ih]
    simp only [pair_infix_cons_iff hc]
  | pair c r ih =>
    have hfirst : ['\\', c] <:+: '\\' :: c :: r := (List.prefix_append ['\\', c] r).isInfix
    rw [hread.pair]
    cases hvalue : value? c with
    | some d =>
      -- an escape leaves the text shorter than it was
      have hlength := hread.length_le r
      constructor
      · intro h
        have hsame := congrArg List.length h
        rw [escapeValue_some hvalue] at hsame
        simp only [List.length_append, List.length_cons, List.length_nil] at hsame
        omega
      · intro h
        rw [h c hfirst] at hvalue
        cases hvalue
    | none =>
      have hc := hread.ne_backslash hvalue
      rw [escapeValue_none hvalue, List.cons_append, List.cons_append, List.nil_append,
        List.cons_inj_right, List.cons_inj_right, ih]
      constructor
      · intro h e he
        rw [List.infix_cons_iff, pair_infix_cons_iff hc] at he
        rcases he with he | he
        · rw [List.cons_prefix_cons, List.cons_prefix_cons] at he
          rw [he.2.1, hvalue]
        · exact h e he
      · intro h e he
        exact h e (List.infix_cons (List.infix_cons he))

/-! ## Runs of backslashes -/

/-- What is read of a text does not depend on the text in front of it, unless that one ends with a
backslash. -/
theorem append (hread : ReadsEscapes value? read) (hfront : front.getLast? ≠ some '\\')
    (r : List Char) : read (front ++ r) = read front ++ read r := by
  have hrest {t s : List Char} (h : (t ++ s).getLast? ≠ some '\\') : s.getLast? ≠ some '\\' := by
    intro hs
    rw [List.getLast?_append, hs] at h
    exact h rfl
  induction front using escapesInduction with
  | nil => rw [hread.nil, List.nil_append, List.nil_append]
  | last => exact absurd rfl hfront
  | char c s hc ih =>
    rw [List.cons_append, hread.char hc, hread.char hc, ih (hrest (t := [c]) hfront),
      List.cons_append]
  | pair c s ih =>
    rw [List.cons_append, List.cons_append, hread.pair, hread.pair,
      ih (hrest (t := ['\\', c]) hfront), List.append_assoc]

theorem replicate_append (hread : ReadsEscapes value? read) (k : Nat) (r : List Char) :
    read (List.replicate (2 * k) '\\' ++ r) = List.replicate k '\\' ++ read r := by
  induction k with
  | zero => rfl
  | succ k ih =>
    rw [Nat.mul_succ, List.replicate_succ, List.replicate_succ, List.cons_append,
      List.cons_append, hread.pair, escapeValue_some hread.backslash, ih, List.replicate_succ]
    rfl

/-- Each two backslashes of a run stand for one, and the last one of an odd run goes with the
character behind it. -/
theorem run (hread : ReadsEscapes value? read) (hfront : front.getLast? ≠ some '\\')
    (hc : c ≠ '\\') (k : Nat) (r : List Char) :
    read (front ++ (List.replicate k '\\' ++ c :: r)) =
      read front ++ (List.replicate (k / 2) '\\' ++
        ((if k % 2 = 0 then [c] else escapeValue value? c) ++ read r)) := by
  rw [hread.append hfront, List.append_cancel_left_eq]
  split
  · next heven =>
    obtain ⟨m, rfl⟩ : ∃ m, k = 2 * m := ⟨k / 2, by omega⟩
    rw [hread.replicate_append, hread.char hc, Nat.mul_div_cancel_left m Nat.two_pos]
    rfl
  · next hodd =>
    obtain ⟨m, rfl⟩ : ∃ m, k = 2 * m + 1 := ⟨k / 2, by omega⟩
    have hhalf : (2 * m + 1) / 2 = m := by omega
    rw [List.replicate_succ', List.append_assoc, List.singleton_append, hread.replicate_append,
      hread.pair, hhalf]

end ReadsEscapes

/-- Whether a function keeps a backslash together with a character behind it, wherever the two
stand. Any text in front of them ends in some number `k` of backslashes, of which each two stand for
one. -/
def KeepsBackslash (read : List Char → List Char) (c : Char) : Prop :=
  ∀ front k r, front.getLast? ≠ some '\\' →
    read (front ++ (List.replicate k '\\' ++ '\\' :: c :: r)) =
      read front ++ (List.replicate (k / 2) '\\' ++ '\\' :: c :: read r)

theorem ReadsEscapes.keepsBackslash (hread : ReadsEscapes value? read) (h : value? c = none) :
    KeepsBackslash read c := by
  intro front k r hfront
  have hrun := hread.run hfront (hread.ne_backslash h) (k + 1) r
  rw [List.replicate_succ', List.append_assoc, List.singleton_append] at hrun
  rw [hrun, List.append_cancel_left_eq]
  split
  · next hodd =>
    -- the backslash is the second one of a pair, and the first one is kept in its place
    have hhalf : (k + 1) / 2 = k / 2 + 1 := by omega
    rw [hhalf, List.replicate_succ', List.append_assoc]
    rfl
  · next heven =>
    have hhalf : (k + 1) / 2 = k / 2 := by omega
    rw [hhalf, escapeValue_none h]
    rfl

/-! ## Single quotes -/

/-- The value of an escape in single quotes. -/
def singleEscape? (c : Char) : Option Char := if c = '\\' ∨ c = '\'' then some c else none

theorem unescapeSingle_char (h : c ≠ '\\') (r : List Char) :
    unescapeSingle (c :: r) = c :: unescapeSingle r := by
  rw [unescapeSingle]
  · exact fun _ hc _ => h hc
  · exact fun _ hc _ => h hc

theorem unescapeSingle_kept (h : ¬(c = '\\' ∨ c = '\'')) (r : List Char) :
    unescapeSingle ('\\' :: c :: r) = '\\' :: c :: unescapeSingle r := by
  rw [not_or] at h
  rw [unescapeSingle, unescapeSingle_char h.1]
  · rintro _ - ⟨⟩
    exact h.2 rfl
  · rintro _ - ⟨⟩
    exact h.1 rfl

theorem readsEscapes_unescapeSingle : ReadsEscapes singleEscape? unescapeSingle where
  nil := rfl
  last := rfl
  char := unescapeSingle_char
  pair c r := by
    by_cases hc : c = '\\' ∨ c = '\''
    · rw [escapeValue_some (if_pos hc)]
      rcases hc with rfl | rfl <;> rfl
    · rw [escapeValue_none (if_neg hc), unescapeSingle_kept hc]
      rfl
  backslash := rfl

theorem singleEscape?_eq_none_iff : singleEscape? c = none ↔ c ≠ '\\' ∧ c ≠ '\'' := by
  simp [singleEscape?]

theorem escapeSingle_eq_flatMap (s : List Char) :
    escapeSingle s = s.flatMap fun c => if c = '\\' ∨ c = '\'' then ['\\', c] else [c] := by
  induction s with
  | nil => rfl
  | cons c s ih =>
    rw [escapeSingle, List.flatMap_cons, ih]
    split <;> rfl

theorem unescapeSingle_escapeSingle (s : List Char) : unescapeSingle (escapeSingle s) = s := by
  rw [escapeSingle_eq_flatMap]
  refine readsEscapes_unescapeSingle.flatMap (fun c => ?_) s
  by_cases hc : c = '\\' ∨ c = '\''
  · exact .inr ⟨c, if_pos hc, if_pos hc⟩
  · exact .inl ⟨fun h => hc (.inl h), if_neg hc⟩

/-! ## Double quotes -/

theorem unescapeDouble_char (h : c ≠ '\\') (r : List Char) :
    unescapeDouble (c :: r) = c :: unescapeDouble r := by
  rw [unescapeDouble]
  exact fun _ _ hc _ => h hc

theorem readsEscapes_unescapeDouble : ReadsEscapes (escapes.lookup ·) unescapeDouble where
  nil := rfl
  last := rfl
  char := unescapeDouble_char
  pair c r := by
    rw [unescapeDouble]
    cases hvalue : escapes.lookup c with
    | some d =>
      rw [escapeValue_some hvalue]
      rfl
    | none =>
      have hc : c ≠ '\\' := by
        rintro rfl
        cases hvalue
      rw [escapeValue_none hvalue]
      dsimp only
      rw [unescapeDouble_char hc]
      rfl
  backslash := rfl

/-- How a character is written in double quotes. -/
def doubleQuoted : Char → List Char
  | '\n' => ['\\', 'n']
  | '\t' => ['\\', 't']
  | '\r' => ['\\', 'r']
  | '\x0b' => ['\\', 'v']
  | '\x1b' => ['\\', 'e']
  | '\x0c' => ['\\', 'f']
  | '\\' => ['\\', '\\']
  | '$' => ['\\', '$']
  | '"' => ['\\', '"']
  | c => [c]

/-- The table of escapes is what this writing takes its escapes from. -/
theorem doubleQuoted_eq (c : Char) :
    doubleQuoted c = match escapes.find? (·.2 = c) with
      | some (e, _) => ['\\', e]
      | none => [c] := by
  unfold doubleQuoted
  split
  case h_10 hn ht hr hv he hf hbackslash hdollar hquote =>
    have hnone : escapes.find? (·.2 = c) = none := by
      rw [List.find?_eq_none]
      simp only [escapes, List.forall_mem_cons, decide_eq_true_eq]
      exact ⟨Ne.symm hn, Ne.symm ht, Ne.symm hr, Ne.symm hv, Ne.symm he, Ne.symm hf,
        Ne.symm hbackslash, Ne.symm hdollar, Ne.symm hquote, List.forall_mem_nil _⟩
    rw [hnone]
  all_goals rfl

theorem lookup_of_mem_escapes : ∀ p ∈ escapes, escapes.lookup p.1 = some p.2 := by decide

theorem escapeDouble_eq_flatMap (s : List Char) : escapeDouble s = s.flatMap doubleQuoted := by
  induction s with
  | nil => rfl
  | cons c s ih =>
    rw [List.flatMap_cons, doubleQuoted_eq, escapeDouble, ih]
    cases escapes.find? (·.2 = c) <;> rfl

theorem unescapeDouble_escapeDouble (s : List Char) : unescapeDouble (escapeDouble s) = s := by
  rw [escapeDouble_eq_flatMap]
  refine readsEscapes_unescapeDouble.flatMap (fun c => ?_) s
  rw [doubleQuoted_eq]
  cases hfind : escapes.find? (·.2 = c) with
  | none =>
    refine .inl ⟨?_, rfl⟩
    rintro rfl
    cases hfind
  | some p =>
    have hvalue : p.2 = c := by simpa using List.find?_some hfind
    have hlookup := lookup_of_mem_escapes p (List.mem_of_find?_eq_some hfind)
    exact .inr ⟨p.1, hvalue ▸ hlookup, rfl⟩

theorem lookup_escapes_eq_none (h : c ∉ ['n', 't', 'r', 'v', 'e', 'f', '\\', '$', '"']) :
    escapes.lookup c = none := by
  have hkeys : escapes.map Prod.fst = ['n', 't', 'r', 'v', 'e', 'f', '\\', '$', '"'] := rfl
  rw [← hkeys] at h
  rw [List.lookup_eq_none_iff]
  intro p hp
  rw [bne_iff_ne]
  rintro rfl
  exact h (List.mem_map_of_mem hp)

/-! ## Both kinds of quotes -/

/-- What was written in quotes is read back. In single quotes, the texts in which no backslash
stands before a backslash or a quote stand for themselves. A backslash before a character that no
escape has is kept. -/
theorem unescape_undoes_escape :
    (∀ s, unescapeSingle (escapeSingle s) = s) ∧
      (∀ s, unescapeSingle s = s ↔ ∀ c, ['\\', c] <:+: s → c ≠ '\\' ∧ c ≠ '\'') ∧
      (∀ s, unescapeDouble (escapeDouble s) = s) ∧
      (∀ s, escapeDouble s = s.flatMap doubleQuoted) ∧
      (∀ c, c ∉ ['\\', '\''] → KeepsBackslash unescapeSingle c) ∧
      ∀ c, c ∉ ['n', 't', 'r', 'v', 'e', 'f', '\\', '$', '"'] →
        KeepsBackslash unescapeDouble c := by
  refine ⟨unescapeSingle_escapeSingle, ?_, unescapeDouble_escapeDouble, escapeDouble_eq_flatMap,
    ?_, ?_⟩
  · intro s
    simp only [readsEscapes_unescapeSingle.eq_self_iff, singleEscape?_eq_none_iff]
  · intro c hc
    have hvalue : singleEscape? c = none := by simpa [singleEscape?] using hc
    exact readsEscapes_unescapeSingle.keepsBackslash hvalue
  · intro c hc
    exact readsEscapes_unescapeDouble.keepsBackslash (lookup_escapes_eq_none hc)

/-- Three backslashes before a letter that no escape has: the first one escapes the second one, and
the third one is kept. -/
theorem unescape_undoes_escape_run :
    'n' ∉ ['\\', '\''] ∧ unescapeSingle "a\\\\\\nb\\'".toList = "a\\\\nb'".toList ∧
      'q' ∉ ['n', 't', 'r', 'v', 'e', 'f', '\\', '$', '"'] ∧
      unescapeDouble "a\\\\\\qb\\n".toList = "a\\\\qb\n".toList := by
  have hn : 'n' ∉ ['\\', '\''] := by decide
  have hq : 'q' ∉ ['n', 't', 'r', 'v', 'e', 'f', '\\', '$', '"'] := by decide
  obtain ⟨-, -, -, -, hsingle, hdouble⟩ := unescape_undoes_escape
  exact ⟨hn, hsingle 'n' hn ['a'] 2 "b\\'".toList (by decide), hq,
    hdouble 'q' hq ['a'] 2 "b\\n".toList (by decide)⟩

/-! ## Literals -/

theorem unquote_quoted (hq : q = '\'' ∨ q = '"') (t : List Char) :
    unquote (q :: (t ++ [q])) = t := by
  have hprefix : ¬(q = 'b' ∨ q = 'B') := by
    rcases hq with rfl | rfl <;> decide
  simp [unquote, hprefix]

/-- A literal has the text that was quoted as its value. -/
theorem literal?_escape (source : Array Char) (s : List Char) :
    (∀ t : Token, t.kind = .quoted → t.text.toList = '\'' :: (escapeSingle s ++ ['\'']) →
        literal? source (.leaf t) = some (String.ofList s)) ∧
      ∀ first last : Tree,
        (Tree.node .template [first, last]).text source = '"' :: (escapeDouble s ++ ['"']) →
          literal? source (.node .template [first, last]) = some (String.ofList s) := by
  constructor
  · intro t hkind htext
    rw [literal?, if_pos hkind, htext, unquote_quoted (.inl rfl), unescapeSingle_escapeSingle]
  · intro first last htext
    rw [literal?, htext, unquote_quoted (.inr rfl), unescapeDouble_escapeDouble]

end TranslationAudit.Php
