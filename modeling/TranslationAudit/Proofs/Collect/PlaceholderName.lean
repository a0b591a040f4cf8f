import TranslationAudit.Proofs.Collect.Quoting

/-! # Names of placeholders

* `Fusion.Expression`: an expression as its pieces between the commas outside braces.
  `Fusion.Braced.exists_expression` gives the pieces of any text whose braces match.
* `Fusion.Entry`: a pair of a map: a bare name and an expression. `Fusion.Entry.nested` and
  `Fusion.Entry.call` are two of them.
* `Fusion.keys_mapOf`, `Fusion.keys_of_map`: the names of a map are those of its entries, each
  followed by those of the later pieces of its expression.
-/

namespace TranslationAudit.Fusion

open Text

variable {c : Char} {s t u r : List Char} {depth : Nat}

/-! ## Expressions -/

/-- Texts whose braces match, wherever they stand. -/
inductive Braced : List Char → Prop
  | nil : Braced []
  | char {c : Char} {s : List Char} (hopen : c ≠ '{') (hclose : c ≠ '}') (hs : Braced s) :
      Braced (c :: s)
  | nested {s t : List Char} (hs : Braced s) (ht : Braced t) : Braced ('{' :: (s ++ '}' :: t))

/-- Texts whose braces match and that have no comma outside of them. -/
inductive Whole : List Char → Prop
  | nil : Whole []
  | char {c : Char} {s : List Char} (hopen : c ≠ '{') (hclose : c ≠ '}') (hcomma : c ≠ ',')
      (hs : Whole s) : Whole (c :: s)
  | nested {s t : List Char} (hs : Braced s) (ht : Whole t) : Whole ('{' :: (s ++ '}' :: t))

def brackets : List (Char × Char) := [('(', ')'), ('{', '}'), ('[', ']')]

/-- Texts whose brackets match and whose strings are closed. The contents of a string, with its
last quote, meet a condition. -/
inductive Nested (contents : List Char → Prop) : List Char → Prop
  | nil : Nested contents []
  | char {c : Char} {s : List Char} (hquote : isQuote c = false)
      (hbracket : ∀ b ∈ brackets, c ≠ b.1 ∧ c ≠ b.2) (hs : Nested contents s) :
      Nested contents (c :: s)
  | quoted {q : Char} {t s : List Char} (hquote : isQuote q = true) (ht : Closed q t)
      (hcontents : contents t) (hs : Nested contents s) : Nested contents (q :: (t ++ s))
  | bracket {b : Char × Char} {s t : List Char} (hb : b ∈ brackets) (hs : Nested contents s)
      (ht : Nested contents t) : Nested contents (b.1 :: (s ++ b.2 :: t))

theorem Braced.append (hs : Braced s) (ht : Braced t) : Braced (s ++ t) := by
  induction hs with
  | nil => exact ht
  | char hopen hclose _ ih => exact ih.char hopen hclose
  | nested hs _ _ ih =>
    rw [List.cons_append, List.append_assoc]
    exact hs.nested ih

theorem Nested.braced (h : Nested Braced s) : Braced s := by
  induction h with
  | nil => exact .nil
  | char hquote hbracket _ ih =>
    have hbrace := hbracket ('{', '}') (by decide)
    exact ih.char hbrace.1 hbrace.2
  | quoted hquote _ hcontents _ ih =>
    refine (hcontents.append ih).char ?_ ?_ <;>
      · rintro rfl
        cases hquote
  | bracket hb _ _ ihs iht =>
    simp only [brackets, List.mem_cons, List.not_mem_nil, or_false] at hb
    rcases hb with rfl | rfl | rfl
    · exact (ihs.append (iht.char (by decide) (by decide))).char (by decide) (by decide)
    · exact ihs.nested iht
    · exact (ihs.append (iht.char (by decide) (by decide))).char (by decide) (by decide)

/-- An expression, in the pieces between its commas outside braces. -/
structure Expression where
  first : List Char
  later : List (List Char)
  whole : ∀ piece ∈ first :: later, Whole piece

def Expression.text (e : Expression) : List Char := [','].intercalate (e.first :: e.later)

theorem intercalate_comma (p : List Char) (ps : List (List Char)) :
    [','].intercalate (p :: ps) = p ++ ps.flatMap (',' :: ·) := by
  induction ps generalizing p with
  | nil => simp
  | cons q ps ih =>
    rw [List.intercalate_cons_cons, ih, List.flatMap_cons]
    simp

/-- A text whose braces match has such pieces. -/
theorem Braced.exists_expression (h : Braced s) : ∃ e : Expression, e.text = s := by
  induction h with
  | nil => exact ⟨⟨[], [], by simpa using Whole.nil⟩, rfl⟩
  | @char c s hopen hclose _ ih =>
    obtain ⟨⟨first, later, hwhole⟩, rfl⟩ := ih
    by_cases hcomma : c = ','
    · subst hcomma
      exact ⟨⟨[], first :: later, List.forall_mem_cons.2 ⟨.nil, hwhole⟩⟩, by
        simp [Expression.text, intercalate_comma]⟩
    · rw [List.forall_mem_cons] at hwhole
      exact ⟨⟨c :: first, later,
        List.forall_mem_cons.2 ⟨hwhole.1.char hopen hclose hcomma, hwhole.2⟩⟩, by
          simp [Expression.text, intercalate_comma]⟩
  | @nested s t hs _ _ ih =>
    obtain ⟨⟨first, later, hwhole⟩, rfl⟩ := ih
    rw [List.forall_mem_cons] at hwhole
    exact ⟨⟨'{' :: (s ++ '}' :: first), later,
      List.forall_mem_cons.2 ⟨.nested hs hwhole.1, hwhole.2⟩⟩, by
        simp [Expression.text, intercalate_comma]⟩

/-! ## Pieces -/

/-- The pieces of a text. -/
def pieces (depth : Nat) (s : List Char) : List (List Char) :=
  (splitOutsideBraces depth s).1 :: (splitOutsideBraces depth s).2

theorem splitOutsideBraces_braced (h : Braced s) (depth : Nat) (r : List Char) :
    splitOutsideBraces (depth + 1) (s ++ r) =
      Prod.map (s ++ ·) id (splitOutsideBraces (depth + 1) r) := by
  induction h generalizing depth r with
  | nil => rfl
  | char hopen hclose _ ih => simp [splitOutsideBraces, hopen, hclose, ih, Prod.map]
  | nested _ _ ihs iht =>
    simp [splitOutsideBraces, List.append_assoc, ihs, iht, Prod.map]

theorem Whole.passesOver (h : Whole s) : PassesOver (splitOutsideBraces 0) s := by
  intro r
  induction h with
  | nil => rfl
  | char hopen hclose hcomma _ ih =>
    simp [splitOutsideBraces, hopen, hclose, hcomma, ih, Prod.map]
  | nested hs _ ih =>
    simp [splitOutsideBraces, List.append_assoc, splitOutsideBraces_braced hs, ih, Prod.map]

theorem Whole.append_plain (ht : Whole t) (hs : ∀ c ∈ s, c ≠ '{' ∧ c ≠ '}' ∧ c ≠ ',') :
    Whole (s ++ t) := by
  induction s with
  | nil => exact ht
  | cons c s ih =>
    rw [List.forall_mem_cons] at hs
    exact (ih hs.2).char hs.1.1 hs.1.2.1 hs.1.2.2

/-- Whether a character is neither a brace nor a comma. -/
def isPlain (c : Char) : Bool := c != '{' && c != '}' && c != ','

theorem Whole.of_plain (hs : s.all isPlain = true) : Whole s := by
  rw [← List.append_nil s]
  refine Whole.nil.append_plain fun c hc => ?_
  simpa [isPlain, and_assoc] using List.all_eq_true.1 hs c hc

theorem Braced.append_plain (ht : Braced t) (hs : ∀ c ∈ s, c ≠ '{' ∧ c ≠ '}') :
    Braced (s ++ t) := by
  induction s with
  | nil => exact ht
  | cons c s ih =>
    rw [List.forall_mem_cons] at hs
    exact (ih hs.2).char hs.1.1 hs.1.2

theorem pieces_joined {p : List Char} {ps : List (List Char)} (h : ∀ q ∈ p :: ps, Whole q) :
    pieces 0 (p ++ ps.flatMap (',' :: ·)) = p :: ps := by
  induction ps generalizing p with
  | nil =>
    rw [List.forall_mem_cons] at h
    rw [List.flatMap_nil, pieces, h.1.passesOver]
    simp [splitOutsideBraces, Prod.map]
  | cons q ps ih =>
    rw [List.forall_mem_cons] at h
    have hrest := ih h.2
    rw [pieces, List.cons.injEq] at hrest
    rw [List.flatMap_cons, List.cons_append, pieces, h.1.passesOver,
      splitsAtCommas_splitOutsideBraces.comma, hrest.1, hrest.2]
    simp [Prod.map]

theorem splitOutsideBraces_of_not_mem (hr : ',' ∉ r) (depth : Nat) :
    splitOutsideBraces depth r = (r, []) := by
  induction r generalizing depth with
  | nil => rfl
  | cons c r ih =>
    rw [List.mem_cons, not_or] at hr
    simp [splitOutsideBraces, Ne.symm hr.1, ih hr.2]

/-- What follows the last comma belongs to the last piece. -/
theorem exists_pieces_append (hr : ',' ∉ r) (depth : Nat) (s : List Char) :
    ∃ front last, pieces depth s = front ++ [last] ∧
      pieces depth (s ++ r) = front ++ [last ++ r] := by
  induction s generalizing depth with
  | nil => exact ⟨[], [], rfl, by simp [pieces, splitOutsideBraces_of_not_mem hr]⟩
  | cons c s ih =>
    by_cases hcomma : c = ',' ∧ depth = 0
    · obtain ⟨rfl, rfl⟩ := hcomma
      obtain ⟨front, last, hs, hr⟩ := ih 0
      exact ⟨[] :: front, last, congrArg ([] :: ·) hs, congrArg ([] :: ·) hr⟩
    · obtain ⟨front, last, hs, hr⟩ := ih (braceDepth depth c)
      have hcons (t : List Char) :
          pieces depth (c :: t) = (pieces (braceDepth depth c) t).modifyHead (c :: ·) := by
        rw [pieces, splitOutsideBraces_cons hcomma]
        rfl
      rw [List.cons_append, hcons, hcons, hs, hr]
      cases front with
      | nil => exact ⟨[], c :: last, rfl, rfl⟩
      | cons piece front => exact ⟨(c :: piece) :: front, last, rfl, rfl⟩

/-! ## Names -/

/-- The name that a piece is read to have: what is before its first colon, without the blanks and
quotes around it. -/
def name? (piece : List Char) : Option String := (placeholder? piece).map Prod.fst

theorem name?_append (hr : ':' ∉ r) (piece : List Char) : name? (piece ++ r) = name? piece := by
  rw [name?, name?, placeholder?, placeholder?]
  by_cases hcolon : ':' ∈ piece
  · obtain ⟨name, value, rfl, hname⟩ := List.eq_append_cons_of_mem hcolon
    rw [List.append_assoc, List.cons_append, cutAt?_append hname, cutAt?_append hname]
    dsimp only
    split <;> rfl
  · rw [cutAt?_eq_none hcolon, cutAt?_eq_none (by simp [hcolon, hr])]

/-- The names that the pieces of a text are read to have. -/
def names (s : List Char) : List String := (pieces 0 s).filterMap name?

theorem names_append (hcomma : ',' ∉ r) (hcolon : ':' ∉ r) (s : List Char) :
    names (s ++ r) = names s := by
  obtain ⟨front, last, hs, hr⟩ := exists_pieces_append hcomma 0 s
  rw [names, names, hs, hr, List.filterMap_append, List.filterMap_append]
  congr 1
  rw [List.filterMap_cons, List.filterMap_cons, name?_append hcolon]

theorem not_mem_of_isPadding (h : ∀ c ∈ r, isPadding c = true) : ',' ∉ r ∧ ':' ∉ r :=
  ⟨fun hmem => absurd (h _ hmem) (by decide), fun hmem => absurd (h _ hmem) (by decide)⟩

/-- What is stripped at the end has no names. -/
theorem names_dropEndWhile (s : List Char) : names (dropEndWhile isPadding s) = names s := by
  have hend := not_mem_of_isPadding (r := s.rtakeWhile isPadding) fun _ => List.mem_rtakeWhile_imp
  conv_rhs => rw [← List.rdropWhile_append_rtakeWhile (p := isPadding) (l := s)]
  rw [names_append hend.1 hend.2, dropEndWhile_eq]

/-! ## Maps -/

/-- A pair of a map: blanks, a bare name, and an expression. -/
structure Entry where
  blanks : List Char
  name : List Char
  value : Expression
  blank : allBlank blanks = true
  bare : IsBare name

namespace Entry

/-- The piece from the name up to the first comma of the expression outside braces. -/
def head (e : Entry) : List Char := e.name ++ ':' :: e.value.first

def text (e : Entry) : List Char := e.blanks ++ e.name ++ ':' :: e.value.text

/-- The name of a pair, and those of the later pieces of its expression. -/
def names (e : Entry) : List String := String.ofList e.name :: e.value.later.filterMap name?

end Entry

def mapOf (es : List Entry) : List Char := '{' :: ([','].intercalate (es.map Entry.text) ++ ['}'])

theorem trim_mapOf (es : List Entry) : trim (mapOf es) = mapOf es := by
  refine stripWhile_of_ends ?_ ?_
  · rintro c h
    cases h
    decide
  · intro c h
    rw [mapOf, ← List.cons_append, List.getLast?_concat, Option.some.injEq] at h
    exact h ▸ by decide

/-- The pieces of an entry. -/
def Entry.pieces (e : Entry) : List (List Char) := (e.blanks ++ e.head) :: e.value.later

/-- The pieces of a map, of which the first one stands without blanks. -/
def mapPieces (e : Entry) (es : List Entry) : List (List Char) :=
  e.head :: (e.value.later ++ es.flatMap Entry.pieces)

theorem Entry.text_eq (e : Entry) :
    e.text = e.blanks ++ [','].intercalate (e.head :: e.value.later) := by
  rw [text, Expression.text, intercalate_comma, intercalate_comma, head]
  simp

theorem mapOf_cons (e : Entry) (es : List Entry) :
    mapOf (e :: es) =
      ('{' :: e.blanks) ++ ([','].intercalate (mapPieces e es) ++ ['}']) := by
  have hlater (es : List Entry) :
      (es.map Entry.text).flatMap (',' :: ·) = (es.flatMap Entry.pieces).flatMap (',' :: ·) := by
    rw [List.flatMap_map, List.flatMap_assoc]
    refine List.flatMap_congr fun e _ => ?_
    rw [Entry.text_eq, intercalate_comma, Entry.pieces, List.flatMap_cons]
    simp
  rw [mapOf, List.map_cons, intercalate_comma, hlater, Entry.text_eq, mapPieces, intercalate_comma,
    intercalate_comma, List.flatMap_append]
  simp

theorem Entry.whole_head (e : Entry) {u : List Char} (hu : allBlank u = true) :
    Whole (u ++ e.head) := by
  have hvalue : Whole e.value.first := e.value.whole _ List.mem_cons_self
  have hplain : ∀ c ∈ u ++ e.name, c ∉ marks := by
    intro c hc
    rcases List.mem_append.1 hc with hc | hc
    · exact not_mem_marks_of_allBlank hu c hc
    · exact (e.bare.plain c hc).2.1
  rw [head, ← List.append_assoc]
  refine (hvalue.char (by decide) (by decide) (by decide)).append_plain fun c hc => ?_
  have hmarks := hplain c hc
  simp only [marks, List.mem_cons, not_or] at hmarks
  exact ⟨hmarks.2.2.2.2.2.1, hmarks.2.2.2.2.2.2.1, hmarks.2.2.1⟩

theorem whole_of_mem_mapPieces {e : Entry} {es : List Entry} {piece : List Char}
    (h : piece ∈ mapPieces e es) : Whole piece := by
  have hlater (e : Entry) (hmem : piece ∈ e.value.later) : Whole piece :=
    e.value.whole piece (List.mem_cons_of_mem _ hmem)
  rw [mapPieces, List.mem_cons, List.mem_append, List.mem_flatMap] at h
  rcases h with rfl | h | ⟨e', -, h⟩
  · exact e.whole_head allBlank_nil
  · exact hlater e h
  · rcases List.mem_cons.1 h with rfl | h
    · exact e'.whole_head e'.blank
    · exact hlater e' h

theorem Entry.name?_head (e : Entry) {u : List Char} (hu : allBlank u = true) :
    name? (u ++ e.head) = some (String.ofList e.name) := by
  rw [name?, placeholder?_blank hu, head, e.bare.placeholder?]
  rfl

theorem names_mapPieces (e : Entry) (es : List Entry) :
    names ([','].intercalate (mapPieces e es)) = (e :: es).flatMap Entry.names := by
  have hpieces : Fusion.pieces 0 ([','].intercalate (mapPieces e es)) = mapPieces e es := by
    rw [mapPieces, intercalate_comma]
    have hwhole : ∀ piece ∈ mapPieces e es, Whole piece := fun _ => whole_of_mem_mapPieces
    exact pieces_joined hwhole
  have hhead : name? e.head = some (String.ofList e.name) := e.name?_head allBlank_nil
  have hentries : (es.flatMap Entry.pieces).filterMap name? = es.flatMap Entry.names := by
    rw [List.filterMap_flatMap]
    refine List.flatMap_congr fun e _ => ?_
    rw [Entry.pieces, List.filterMap_cons, e.name?_head e.blank]
    rfl
  rw [names, hpieces, mapPieces, List.filterMap_cons, hhead, List.filterMap_append, hentries]
  rfl

/-- What is left of a map when its ends are stripped. -/
theorem stripWhile_mapOf (e : Entry) (es : List Entry) :
    stripWhile isPadding (mapOf (e :: es)) =
      dropEndWhile isPadding ([','].intercalate (mapPieces e es) ++ ['}']) := by
  have hblanks : ∀ c ∈ '{' :: e.blanks, isPadding c = true := by
    rw [List.forall_mem_cons]
    exact ⟨by decide, fun c hc => by simp [isPadding, List.all_eq_true.1 e.blank c hc]⟩
  obtain ⟨c, name, hname⟩ := List.exists_cons_of_ne_nil e.bare.ne_nil
  have hc : isPadding c = false := by
    obtain ⟨hblank, hmarks, -⟩ := e.bare.plain c (hname ▸ List.mem_cons_self)
    exact isPadding_eq_false hblank hmarks
  rw [mapOf_cons, stripWhile_append_left hblanks, stripWhile, mapPieces, intercalate_comma,
    Entry.head, hname]
  simp [hc]

/-- The names of a map are those of its pairs and of the later pieces of their expressions, each at
its first place. -/
theorem keys_mapOf (es : List Entry) :
    (placeholders (mapOf es)).keys = (es.flatMap Entry.names).eraseDups := by
  cases es with
  | nil => rfl
  | cons e es =>
    have hbrace := not_mem_of_isPadding (r := ['}']) (by simp [isPadding])
    have hread : placeholders (mapOf (e :: es)) =
        Dict.ofList ((Fusion.pieces 0 (stripWhile isPadding (mapOf (e :: es)))).filterMap
          placeholder?) := by
      rw [placeholders, trim_mapOf]
      rfl
    rw [hread, Dict.keys_ofList, List.map_filterMap, ← names_mapPieces,
      ← names_append hbrace.1 hbrace.2, ← names_dropEndWhile, ← stripWhile_mapOf]
    rfl

theorem eraseDups_of_nodup {names : List String} (h : names.Nodup) : names.eraseDups = names := by
  induction names with
  | nil => rfl
  | cons name names ih =>
    rw [List.nodup_cons] at h
    have hothers : names.filter (fun other => !other == name) = names := by
      rw [List.filter_eq_self]
      intro other hmem
      have hne : other ≠ name := by
        rintro rfl
        exact h.1 hmem
      simpa using hne
    rw [List.eraseDups_cons, hothers, ih h.2]

/-- The names of a map, whose pairs are separated by the commas outside nested braces: those of its
pairs, each followed by those that stand behind later commas of its expression outside braces. If
there are none of these, the names are exactly the given ones. -/
theorem keys_of_map (es : List Entry) :
    (placeholders (mapOf es)).keys = (es.flatMap Entry.names).eraseDups ∧
      ((es.map Entry.name).Nodup → (∀ e ∈ es, ∀ piece ∈ e.value.later, name? piece = none) →
        (placeholders (mapOf es)).keys = (es.map Entry.name).map String.ofList) ∧
      ∀ s, Nested Braced s → ∃ e : Expression, e.text = s := by
  refine ⟨keys_mapOf es, fun hnodup hlater => ?_, fun s hs => hs.braced.exists_expression⟩
  have hnames : es.flatMap Entry.names = (es.map Entry.name).map String.ofList := by
    rw [List.map_map, List.map_eq_flatMap]
    refine List.flatMap_congr fun e he => ?_
    rw [Entry.names, List.filterMap_eq_nil_iff.2 (hlater e he)]
    rfl
  have hdistinct : ((es.map Entry.name).map String.ofList).Nodup :=
    List.Pairwise.map _ (fun _ _ hne heq => hne (String.ofList_injective heq)) hnodup
  rw [keys_mapOf, hnames, eraseDups_of_nodup hdistinct]

/-! ### Two pairs -/

theorem isBare_count : IsBare "count".toList := ⟨by decide, by simp [marks, isBlank]⟩

theorem isBare_size : IsBare "size".toList := ⟨by decide, by simp [marks, isBlank]⟩

theorem whole_nested : Whole " \x7ba: 1, b: 2\x7d".toList := by
  have hbody : Braced "a: 1, b: 2".toList :=
    Braced.nil.append_plain (s := "a: 1, b: 2".toList) (by simp)
  have hmap : Whole "\x7ba: 1, b: 2\x7d".toList := .nested hbody .nil
  exact hmap.append_plain (s := " ".toList) (by simp)

/-- A nested map, whose comma separates nothing. -/
def Entry.nested : Entry where
  blanks := []
  name := "count".toList
  value := ⟨" \x7ba: 1, b: 2\x7d".toList, [], List.forall_mem_singleton.2 whole_nested⟩
  blank := allBlank_nil
  bare := isBare_count

/-- A call, whose comma cuts off a piece that has a name if the second argument has a colon. -/
def Entry.call (argument : List Char) (h : argument.all isPlain = true) : Entry where
  blanks := " ".toList
  name := "size".toList
  value := ⟨" f(n".toList, [argument],
    List.forall_mem_cons.2 ⟨.of_plain rfl, List.forall_mem_singleton.2 (.of_plain h)⟩⟩
  blank := rfl
  bare := isBare_size

theorem keys_of_map_nested :
    let plain := [Entry.nested, Entry.call " m)".toList rfl]
    let named := [Entry.nested, Entry.call " k: m)".toList rfl]
    mapOf plain = "\x7bcount: \x7ba: 1, b: 2\x7d, size: f(n, m)\x7d".toList ∧
      (placeholders (mapOf plain)).keys = ["count", "size"] ∧
      mapOf named = "\x7bcount: \x7ba: 1, b: 2\x7d, size: f(n, k: m)\x7d".toList ∧
      (placeholders (mapOf named)).keys = ["count", "size", "k"] := by
  intro plain named
  refine ⟨by decide, ?_, by decide, (keys_of_map named).1.trans (by decide)⟩
  exact (keys_of_map plain).2.1 (by decide) (by decide)

theorem Nested.append_plain {contents : List Char → Prop} (ht : Nested contents t)
    (hs : ∀ c ∈ s, isQuote c = false ∧ ∀ b ∈ brackets, c ≠ b.1 ∧ c ≠ b.2) :
    Nested contents (s ++ t) := by
  induction s with
  | nil => exact ht
  | cons c s ih =>
    rw [List.forall_mem_cons] at hs
    exact (ih hs.2).char hs.1.1 hs.1.2

/-- A comma in a call or in a string cuts an expression, so that its second half is read as a pair
of its own. -/
theorem keys_of_map_cut :
    IsBare "count".toList ∧ IsBare "text".toList ∧
      Nested (fun _ => True) "f(n, \x7bunit: 'px'\x7d)".toList ∧
      Nested (fun _ => True) "'x, y: z'".toList ∧
      (placeholders "\x7bcount: f(n, \x7bunit: 'px'\x7d), text: 'x, y: z'\x7d".toList).keys =
        ["count", "\x7bunit", "text", "y"] := by
  have hstring (t : List Char) (ht : ∀ c ∈ t, c ≠ '\'' ∧ c ≠ '\\') :
      Nested (fun _ => True) ('\'' :: (t ++ ['\''] ++ [])) :=
    .quoted (by decide) (closed_concat ht) trivial .nil
  have hunit : Nested (fun _ => True) "unit: 'px'".toList :=
    .append_plain (s := "unit: ".toList) (hstring "px".toList (by simp))
      (by simp [isQuote, brackets])
  have hmap : Nested (fun _ => True) "n, \x7bunit: 'px'\x7d".toList :=
    .append_plain (s := "n, ".toList) (.bracket (b := ('{', '}')) (by decide) hunit .nil)
      (by simp [isQuote, brackets])
  have hcall : Nested (fun _ => True) "f(n, \x7bunit: 'px'\x7d)".toList :=
    .append_plain (s := "f".toList) (.bracket (b := ('(', ')')) (by decide) hmap .nil)
      (by simp [isQuote, brackets])
  exact ⟨isBare_count, ⟨by decide, by simp [marks, isBlank]⟩, hcall,
    hstring "x, y: z".toList (by simp), by decide⟩

end TranslationAudit.Fusion
