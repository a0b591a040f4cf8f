import TranslationAudit.Collect.Fusion
import TranslationAudit.Proofs.Collect.Fusion
import TranslationAudit.Proofs.Text.Blank
import TranslationAudit.Proofs.Text.Strip

/-! # Lists of arguments

* `Fusion.Closed`, `Fusion.Balanced`: texts in quotes, and texts whose parentheses match.
* `Fusion.cutCall?_balanced`, `Fusion.exists_of_cutCall?`: a list of arguments is a balanced text in
  parentheses.
* `Fusion.Literal`: a list that is one string; `Fusion.Literal.literal?_text` reads it as a literal,
  and `Fusion.Literal.ofArguments_text` as the only argument.
-/

namespace TranslationAudit.Fusion

/-! ## Balanced texts -/

/-- What follows an opening quote, up to the closing one. A backslash takes a character along. -/
inductive Closed (q : Char) : List Char → Prop
  | close : Closed q [q]
  | escaped (c : Char) {s : List Char} : Closed q s → Closed q ('\\' :: c :: s)
  | char {c : Char} {s : List Char} : c ≠ q → c ≠ '\\' → Closed q s → Closed q (c :: s)

/-- Texts in which parentheses match and quotes are closed. Parentheses in quotes do not count. -/
inductive Balanced : List Char → Prop
  | nil : Balanced []
  | char {c : Char} {s : List Char} :
      isQuote c = false → c ≠ '(' → c ≠ ')' → Balanced s → Balanced (c :: s)
  | quoted {q : Char} {t s : List Char} :
      isQuote q = true → Closed q t → Balanced s → Balanced (q :: (t ++ s))
  | nested {t s : List Char} : Balanced t → Balanced s → Balanced ('(' :: (t ++ ')' :: s))

variable {q c : Char} {s t r a b u v : List Char} {depth : Nat}

theorem ne_backslash_of_isQuote (h : isQuote q = true) : q ≠ '\\' := by
  rintro rfl
  cases h

theorem Closed.getLast? (h : Closed q t) : t.getLast? = some q := by
  induction h with
  | close => rfl
  | @escaped c s h ih =>
    obtain ⟨front, rfl⟩ := List.getLast?_eq_some_iff.1 ih
    rw [← List.cons_append, ← List.cons_append, List.getLast?_concat]
  | @char c s hq hc h ih =>
    obtain ⟨front, rfl⟩ := List.getLast?_eq_some_iff.1 ih
    rw [← List.cons_append, List.getLast?_concat]

/-- What is found behind a text, with the text in front. -/
def behind (s : List Char) (found : Option (List Char × List Char)) :
    Option (List Char × List Char) :=
  found.map fun (a, b) => (s ++ a, b)

theorem behind_behind (s t : List Char) (found : Option (List Char × List Char)) :
    behind s (behind t found) = behind (s ++ t) found := by
  cases found with
  | none => rfl
  | some found => simp [behind]

theorem cutBalanced?_escaped (q c : Char) (depth : Nat) (r : List Char) :
    cutBalanced? (some q) depth ('\\' :: c :: r) =
      behind ['\\', c] (cutBalanced? (some q) depth r) := rfl

theorem cutBalanced?_inside (h : c ≠ '\\') (q : Char) (depth : Nat) (r : List Char) :
    cutBalanced? (some q) depth (c :: r) =
      behind [c] (cutBalanced? (if c = q then none else some q) depth r) := by
  cases r <;> exact if_neg h

theorem cutBalanced?_quote (h : isQuote q = true) (depth : Nat) (r : List Char) :
    cutBalanced? none depth (q :: r) = behind [q] (cutBalanced? (some q) depth r) :=
  if_pos h

theorem cutBalanced?_open (depth : Nat) (r : List Char) :
    cutBalanced? none depth ('(' :: r) = behind ['('] (cutBalanced? none (depth + 1) r) := rfl

theorem cutBalanced?_close (depth : Nat) (r : List Char) :
    cutBalanced? none (depth + 1) (')' :: r) = behind [')'] (cutBalanced? none depth r) := rfl

theorem cutBalanced?_char (hquote : isQuote c = false) (hopen : c ≠ '(') (hclose : c ≠ ')')
    (depth : Nat) (r : List Char) :
    cutBalanced? none depth (c :: r) = behind [c] (cutBalanced? none depth r) := by
  simp [cutBalanced?, hquote, hopen, hclose, behind]

theorem cutBalanced?_closed (h : Closed q t) (hq : q ≠ '\\') (depth : Nat) (r : List Char) :
    cutBalanced? (some q) depth (t ++ r) = behind t (cutBalanced? none depth r) := by
  induction h with
  | close => rw [List.singleton_append, cutBalanced?_inside hq, if_pos rfl]
  | escaped c h ih =>
    rw [List.cons_append, List.cons_append, cutBalanced?_escaped, ih, behind_behind]
    rfl
  | char hne hc h ih =>
    rw [List.cons_append, cutBalanced?_inside hc, if_neg hne, ih, behind_behind]
    rfl

theorem cutBalanced?_balanced (h : Balanced s) (depth : Nat) (r : List Char) :
    cutBalanced? none depth (s ++ r) = behind s (cutBalanced? none depth r) := by
  induction h generalizing depth r with
  | nil => cases h : cutBalanced? none depth r <;> simp [behind, h]
  | char hquote hopen hclose h ih =>
    rw [List.cons_append, cutBalanced?_char hquote hopen hclose, ih, behind_behind]
    rfl
  | quoted hquote hclosed h ih =>
    rw [List.cons_append, cutBalanced?_quote hquote, List.append_assoc,
      cutBalanced?_closed hclosed (ne_backslash_of_isQuote hquote), ih, behind_behind,
      behind_behind]
    rfl
  | nested ht hs iht ihs =>
    rw [List.cons_append, cutBalanced?_open, List.append_assoc, iht, List.cons_append,
      cutBalanced?_close, ihs, behind_behind, behind_behind, behind_behind]
    congr 1
    simp

/-- Texts that close some open parentheses and are balanced in between. -/
def Closes : Nat → List Char → Prop
  | 0, s => Balanced s
  | depth + 1, s => ∃ t r, s = t ++ ')' :: r ∧ Balanced t ∧ Closes depth r

theorem Closes.append (hfront : ∀ t, Balanced t → Balanced (s ++ t)) (h : Closes depth r) :
    Closes depth (s ++ r) := by
  cases depth with
  | zero => exact hfront r h
  | succ depth =>
    obtain ⟨t, r, rfl, ht, hr⟩ := h
    exact ⟨s ++ t, r, by rw [List.append_assoc], hfront t ht, hr⟩

/-- What is cut off while a quote may be open. -/
def ClosesFrom : Option Char → Nat → List Char → Prop
  | none, depth, s => Closes depth s
  | some q, depth, s => ∃ t r, s = t ++ r ∧ Closed q t ∧ Closes depth r

theorem closesFrom_of_cutBalanced? {quote : Option Char}
    (h : cutBalanced? quote depth s = some (a, b)) : ClosesFrom quote depth a := by
  fun_induction cutBalanced? quote depth s generalizing a b with
  | case1 | case2 => cases h
  | case3 q depth c t ih =>
    obtain ⟨⟨a, b'⟩, hcut, heq⟩ := Option.map_eq_some_iff.1 h
    cases heq
    obtain ⟨t, r, rfl, ht, hr⟩ := ih hcut
    exact ⟨'\\' :: c :: t, r, rfl, ht.escaped c, hr⟩
  | case4 q depth c r hc ih =>
    obtain ⟨⟨a, b'⟩, hcut, heq⟩ := Option.map_eq_some_iff.1 h
    cases heq
    by_cases hq : c = q
    · rw [if_pos hq] at hcut ih
      exact ⟨[c], a, rfl, hq ▸ .close, ih hcut⟩
    · rw [if_neg hq] at hcut ih
      obtain ⟨t, r, rfl, ht, hr⟩ := ih hcut
      exact ⟨c :: t, r, rfl, ht.char hq hc, hr⟩
  | case5 depth c r hquote ih =>
    obtain ⟨⟨a, b'⟩, hcut, heq⟩ := Option.map_eq_some_iff.1 h
    cases heq
    obtain ⟨t, r, rfl, ht, hr⟩ := ih hcut
    have hfront (s : List Char) (hs : Balanced s) : Balanced (c :: t ++ s) := hs.quoted hquote ht
    exact hr.append hfront
  | case6 depth r hquote ih =>
    obtain ⟨⟨a, b'⟩, hcut, heq⟩ := Option.map_eq_some_iff.1 h
    cases heq
    obtain ⟨t, r, rfl, ht, hr⟩ := ih hcut
    have hfront (s : List Char) (hs : Balanced s) : Balanced ('(' :: t ++ [')'] ++ s) := by
      simpa using ht.nested hs
    change Closes depth _
    simpa using hr.append hfront
  | case7 =>
    cases h
    exact .nil
  | case8 r hquote hopen depth ih =>
    obtain ⟨⟨a, b'⟩, hcut, heq⟩ := Option.map_eq_some_iff.1 h
    cases heq
    exact ⟨[], a, rfl, .nil, ih hcut⟩
  | case9 depth c r hquote hopen hclose ih =>
    obtain ⟨⟨a, b'⟩, hcut, heq⟩ := Option.map_eq_some_iff.1 h
    cases heq
    have hfront (s : List Char) (hs : Balanced s) : Balanced ([c] ++ s) :=
      hs.char (by simpa using hquote) hopen hclose
    exact (ih hcut).append hfront

/-! ## Lists in parentheses -/

theorem cutCall?_balanced (hu : ∀ c ∈ u, isSpace c = true) (h : Balanced s) (r : List Char) :
    cutCall? (u ++ '(' :: (s ++ ')' :: r)) = some (s, r) := by
  rw [cutCall?, Text.dropWhile_append_cons hu (by decide)]
  refine (cutBalanced?_balanced h 0 (')' :: r)).trans ?_
  simp [cutBalanced?, behind, isQuote]

theorem exists_of_cutCall? (h : cutCall? t = some (s, r)) :
    ∃ u, (∀ c ∈ u, isSpace c = true) ∧ Balanced s ∧ t = u ++ '(' :: (s ++ ')' :: r) := by
  unfold cutCall? at h
  split at h
  · next rest hrest =>
    refine ⟨t.takeWhile isSpace, fun _ => List.mem_takeWhile_imp, closesFrom_of_cutBalanced? h, ?_⟩
    rw [← eq_append_of_cutBalanced? h, ← hrest, List.takeWhile_append_dropWhile]
  · cases h

/-! ## Lists of one string -/

/-- A string with blanks around it. -/
structure Literal where
  before : List Char
  quote : Char
  /-- What follows the opening quote. -/
  body : List Char
  after : List Char
  before_blank : Text.allBlank before = true
  isQuote : isQuote quote = true
  closed : Closed quote body
  after_blank : Text.allBlank after = true

theorem closed_concat (hs : ∀ c ∈ s, c ≠ q ∧ c ≠ '\\') : Closed q (s ++ [q]) := by
  induction s with
  | nil => exact .close
  | cons c s ih =>
    rw [List.forall_mem_cons] at hs
    exact .char hs.1.1 hs.1.2 (ih hs.2)

namespace Literal

/-- A string without quotes and escapes, in single quotes. -/
def plain (s : List Char) (hs : ∀ c ∈ s, c ≠ '\'' ∧ c ≠ '\\') : Literal where
  before := []
  quote := '\''
  body := s ++ ['\'']
  after := []
  before_blank := rfl
  isQuote := rfl
  closed := closed_concat hs
  after_blank := rfl

variable (l : Literal)

def string : List Char := l.quote :: l.body

def text : List Char := l.before ++ l.string ++ l.after

def value : String := String.ofList (unescape l.body.dropLast)

theorem trim_text : Text.trim l.text = l.string := by
  have hquote : Text.isBlank l.quote = false := by
    have h := l.isQuote
    rw [Fusion.isQuote, Bool.or_eq_true, beq_iff_eq, beq_iff_eq] at h
    obtain h | h := h <;> rw [h] <;> decide
  obtain ⟨front, hfront⟩ := List.getLast?_eq_some_iff.1 l.closed.getLast?
  rw [text, Text.trim_append_blank l.after_blank, Text.trim_blank_append l.before_blank]
  refine Text.stripWhile_of_ends ?_ ?_
  · rintro c h
    cases h
    exact hquote
  · intro c h
    rw [string, hfront, ← List.cons_append, List.getLast?_concat, Option.some.injEq] at h
    exact h ▸ hquote

theorem literal?_eq_some {s : List Char} (h : Text.trim s = l.string) :
    literal? s = some l.value := by
  rw [literal?, h]
  dsimp only [string]
  rw [l.isQuote, l.closed.getLast?, decide_eq_true rfl]
  rfl

theorem literal?_text : literal? l.text = some l.value := l.literal?_eq_some l.trim_text

theorem literal?_string : literal? l.string = some l.value := by
  refine l.literal?_eq_some ?_
  rw [← trim_text, Text.trim_trim]

end Literal

/-- The characters that a list of arguments is split and closed at. -/
def marks : List Char := ['\'', '"', ',', '(', ')', '{', '}', '[', ']']

theorem not_mem_marks_of_isBlank (h : Text.isBlank c = true) : c ∉ marks := by
  have hmarks : marks.all (!Text.isBlank ·) = true := by decide
  intro hmem
  simpa [h] using List.all_eq_true.1 hmarks c hmem

theorem not_mem_marks_of_allBlank (h : Text.allBlank u = true) : ∀ c ∈ u, c ∉ marks :=
  fun c hc => not_mem_marks_of_isBlank (List.all_eq_true.1 h c hc)

theorem isQuote_eq_false (h : c ∉ marks) : isQuote c = false := by
  simp only [marks, List.mem_cons, not_or] at h
  simp [isQuote, h]

theorem balanced_of_unmarked (h : ∀ c ∈ s, isQuote c = false ∧ c ≠ '(' ∧ c ≠ ')') :
    Balanced s := by
  induction s with
  | nil => exact .nil
  | cons c s ih =>
    rw [List.forall_mem_cons] at h
    exact .char h.1.1 h.1.2.1 h.1.2.2 (ih h.2)

theorem balanced_of_allBlank (h : Text.allBlank u = true) : Balanced u := by
  refine balanced_of_unmarked fun c hc => ?_
  have hmarks := not_mem_marks_of_allBlank h c hc
  refine ⟨isQuote_eq_false hmarks, ?_, ?_⟩ <;> rintro rfl <;> exact hmarks (by decide)

theorem Balanced.append (hs : Balanced s) (ht : Balanced t) : Balanced (s ++ t) := by
  induction hs with
  | nil => exact ht
  | char hquote hopen hclose _ ih => exact .char hquote hopen hclose ih
  | quoted hquote hclosed _ ih =>
    rw [List.cons_append, List.append_assoc]
    exact .quoted hquote hclosed ih
  | nested h _ _ ih =>
    rw [List.cons_append, List.append_assoc, List.cons_append]
    exact .nested h ih

theorem splitCommas_inside (h : c ≠ '\\') (q : Char) (depth : Nat) (r : List Char) :
    splitCommas (some q) depth (c :: r) =
      Prod.map (c :: ·) id (splitCommas (if c = q then none else some q) depth r) := by
  cases r <;> exact if_neg h

theorem splitCommas_quote (h : isQuote q = true) (depth : Nat) (r : List Char) :
    splitCommas none depth (q :: r) = Prod.map (q :: ·) id (splitCommas (some q) depth r) := by
  have hq : q = '\'' ∨ q = '"' := by simpa [isQuote] using h
  rcases hq with rfl | rfl <;> rfl

theorem splitCommas_closed (h : Closed q t) (hq : q ≠ '\\') (depth : Nat) (r : List Char) :
    splitCommas (some q) depth (t ++ r) = Prod.map (t ++ ·) id (splitCommas none depth r) := by
  induction h with
  | close =>
    rw [List.singleton_append, splitCommas_inside hq, if_pos rfl]
    rfl
  | escaped c h ih => simp [splitCommas, ih, Prod.map]
  | char hne hc h ih =>
    rw [List.cons_append, splitCommas_inside hc, if_neg hne, ih]
    rfl

/-- Commas within brackets are passed over. -/
theorem splitCommas_unmarked (h : ∀ c ∈ s, c ∉ marks ∨ (c = ',' ∧ depth ≠ 0)) (r : List Char) :
    splitCommas none depth (s ++ r) = Prod.map (s ++ ·) id (splitCommas none depth r) := by
  induction s with
  | nil => rfl
  | cons c s ih =>
    rw [List.forall_mem_cons] at h
    rcases h.1 with hc | ⟨rfl, hdepth⟩
    · simp only [marks, List.mem_cons, not_or] at hc
      simp [splitCommas, isQuote, ih h.2, hc, Prod.map]
    · simp [splitCommas, isQuote, ih h.2, hdepth, Prod.map]

theorem splitCommas_blank (h : Text.allBlank u = true) (r : List Char) :
    splitCommas none 0 (u ++ r) = Prod.map (u ++ ·) id (splitCommas none 0 r) :=
  splitCommas_unmarked (fun c hc => .inl (not_mem_marks_of_allBlank h c hc)) r

/-- The depth of braces behind a character. -/
def braceDepth (depth : Nat) (c : Char) : Nat :=
  if c = '{' then depth + 1 else if c = '}' then depth - 1 else depth

theorem splitOutsideBraces_cons (h : ¬(c = ',' ∧ depth = 0)) (r : List Char) :
    splitOutsideBraces depth (c :: r) =
      Prod.map (c :: ·) id (splitOutsideBraces (braceDepth depth c) r) := by
  simp [splitOutsideBraces, h, braceDepth, Prod.map]

namespace Literal

variable (l : Literal)

theorem balanced_text : Balanced l.text := by
  have hstring : Balanced l.string := by
    simpa [string] using Balanced.nil.quoted l.isQuote l.closed
  exact ((balanced_of_allBlank l.before_blank).append hstring).append
    (balanced_of_allBlank l.after_blank)

theorem splitArguments_text : splitArguments l.text = [l.string] := by
  have hafter : splitCommas none 0 l.after = (l.after, []) := by
    rw [← List.append_nil l.after, splitCommas_blank l.after_blank]
    simp [splitCommas]
  have hsplit : splitCommas none 0 l.text = (l.text, []) := by
    rw [text, string, List.append_assoc, splitCommas_blank l.before_blank, List.cons_append,
      splitCommas_quote l.isQuote,
      splitCommas_closed l.closed (ne_backslash_of_isQuote l.isQuote), hafter]
    rfl
  rw [splitArguments, hsplit]
  simp [trim_text, string]

/-- A list of one string is a call with an identifier and no more. -/
theorem ofArguments_text (isPlural : Bool) :
    RawCall.ofArguments isPlural l.text = { id := some l.value, isPlural } := by
  rw [RawCall.ofArguments, splitArguments_text]
  simp [literal?_string]

end Literal

end TranslationAudit.Fusion
