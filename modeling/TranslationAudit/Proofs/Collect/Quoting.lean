import TranslationAudit.Proofs.Collect.Chain
import TranslationAudit.Proofs.Collection.Dict

/-! # Calls written with quotes

* `Fusion.escaped`, `Fusion.unescape_escaped`: backslashes before marks are taken off again.
* `Fusion.SplitsAtCommas`, `Fusion.PassesOver`: what splitting a list of texts gives back.
* `Fusion.Placeholder`, `Fusion.placeholders_mapText`: a map of placeholders is read as its pairs.
* `Fusion.collectFusion_translate`: a text with a single token, behind which its strings are quoted,
  has the reference that these strings name.
-/

namespace TranslationAudit.Fusion

variable {c : Char} {s t r : List Char}

/-! ## Quotes -/

/-- A text with a backslash before each backslash and each single quote. -/
def escaped (s : List Char) : List Char :=
  s.flatMap fun c => if c = '\\' ∨ c = '\'' then ['\\', c] else [c]

def quoted (s : String) : List Char := '\'' :: (escaped s.toList ++ ['\''])

theorem escaped_cons_mark (h : c = '\\' ∨ c = '\'') (s : List Char) :
    escaped (c :: s) = '\\' :: c :: escaped s := by
  rw [escaped, List.flatMap_cons, if_pos h]
  rfl

theorem escaped_cons_char (h : ¬(c = '\\' ∨ c = '\'')) (s : List Char) :
    escaped (c :: s) = c :: escaped s := by
  rw [escaped, List.flatMap_cons, if_neg h]
  rfl

theorem unescape_char (h : c ≠ '\\') (r : List Char) : unescape (c :: r) = c :: unescape r :=
  if_neg h

theorem unescape_mark (h : c = '\\' ∨ c = '\'') (r : List Char) :
    unescape ('\\' :: c :: r) = c :: unescape r := by
  rcases h with rfl | rfl <;> rfl

theorem unescape_escaped (s : List Char) : unescape (escaped s) = s := by
  induction s with
  | nil => rfl
  | cons c s ih =>
    by_cases h : c = '\\' ∨ c = '\''
    · rw [escaped_cons_mark h, unescape_mark h, ih]
    · rw [escaped_cons_char h, unescape_char fun hc => h (.inl hc), ih]

theorem closed_escaped (s : List Char) : Closed '\'' (escaped s ++ ['\'']) := by
  induction s with
  | nil => exact .close
  | cons c s ih =>
    by_cases h : c = '\\' ∨ c = '\''
    · rw [escaped_cons_mark h]
      exact ih.escaped c
    · rw [escaped_cons_char h]
      rw [not_or] at h
      exact ih.char h.2 h.1

theorem isQuote_apostrophe : isQuote '\'' = true := rfl

namespace Literal

def ofString (s : String) : Literal where
  before := []
  quote := '\''
  body := escaped s.toList ++ ['\'']
  after := []
  before_blank := Text.allBlank_nil
  isQuote := isQuote_apostrophe
  closed := closed_escaped s.toList
  after_blank := Text.allBlank_nil

theorem string_ofString (s : String) : (ofString s).string = quoted s := rfl

theorem text_ofString (s : String) : (ofString s).text = quoted s := List.append_nil _

theorem value_ofString (s : String) : (ofString s).value = s := by
  rw [value, ofString, List.dropLast_concat, unescape_escaped, String.ofList_toList]

end Literal

theorem literal?_quoted (s : String) : literal? (quoted s) = some s := by
  rw [← Literal.string_ofString, Literal.literal?_string, Literal.value_ofString]

theorem trim_quoted (s : String) : Text.trim (quoted s) = quoted s := by
  rw [← Literal.string_ofString, ← Literal.trim_text, Text.trim_trim]

theorem balanced_quoted (s : String) : Balanced (quoted s) :=
  Literal.text_ofString s ▸ (Literal.ofString s).balanced_text

/-! ## Lists -/

/-- Texts joined by commas. -/
def listed (ps : List (List Char)) : List Char := [',', ' '].intercalate ps

theorem listed_singleton (p : List Char) : listed [p] = p := by
  simp [listed]

theorem listed_cons_cons (p q : List Char) (ps : List (List Char)) :
    listed (p :: q :: ps) = p ++ ',' :: ' ' :: listed (q :: ps) := by
  rw [listed, List.intercalate_cons_cons, ← listed, List.append_assoc]
  rfl

/-- Texts that a function, which splits a text into a first piece and others, leaves whole. -/
def PassesOver (f : List Char → List Char × List (List Char)) (s : List Char) : Prop :=
  ∀ r, f (s ++ r) = Prod.map (s ++ ·) id (f r)

/-- Functions that split a text at its commas, but for those within what is passed over. -/
structure SplitsAtCommas (f : List Char → List Char × List (List Char)) : Prop where
  nil : f [] = ([], [])
  comma (r : List Char) : f (',' :: r) = ([], (f r).1 :: (f r).2)
  space : PassesOver f [' ']

/-- What was joined is split again. All pieces but the first keep the space before them. -/
theorem SplitsAtCommas.listed {f : List Char → List Char × List (List Char)}
    (hf : SplitsAtCommas f) {p : List Char} {ps : List (List Char)}
    (hps : ∀ q ∈ p :: ps, PassesOver f q) : f (listed (p :: ps)) = (p, ps.map (' ' :: ·)) := by
  induction ps generalizing p with
  | nil =>
    rw [listed_singleton, ← List.append_nil p, hps p List.mem_cons_self, hf.nil]
    simp [Prod.map]
  | cons q ps ih =>
    rw [List.forall_mem_cons] at hps
    have hrest : f (' ' :: Fusion.listed (q :: ps)) = (' ' :: q, ps.map (' ' :: ·)) := by
      rw [← List.singleton_append, hf.space, ih hps.2]
      rfl
    rw [listed_cons_cons, hps.1, hf.comma, hrest]
    simp [Prod.map]

/-! ## Lists of arguments -/

theorem splitsAtCommas_splitCommas : SplitsAtCommas (splitCommas none 0) where
  nil := rfl
  comma _ := rfl
  space := fun r => splitCommas_blank (u := [' ']) (by decide) r

theorem passesOver_quoted (s : String) : PassesOver (splitCommas none 0) (quoted s) := by
  intro r
  rw [quoted, List.cons_append, splitCommas_quote isQuote_apostrophe,
    splitCommas_closed (closed_escaped _) (by decide)]
  rfl

theorem splitArguments_listed {ps : List (List Char)} (hne : ps ≠ []) (hempty : [] ∉ ps)
    (hpass : ∀ p ∈ ps, PassesOver (splitCommas none 0) p) (htrim : ∀ p ∈ ps, Text.trim p = p) :
    splitArguments (listed ps) = ps := by
  obtain ⟨p, ps, rfl⟩ := List.exists_cons_of_ne_nil hne
  have hparts : (p :: ps.map (' ' :: ·)).map Text.trim = p :: ps := by
    rw [List.map_cons, List.map_map, htrim p List.mem_cons_self, List.cons_inj_right]
    refine (List.map_congr_left fun q hq => ?_).trans (List.map_id ps)
    exact (Text.trim_space q).trans (htrim q (List.mem_cons_of_mem p hq))
  have hlist : p :: ps ≠ [[]] := by
    intro heq
    rw [heq] at hempty
    exact hempty List.mem_cons_self
  rw [splitArguments, splitsAtCommas_splitCommas.listed hpass]
  dsimp only
  rw [hparts, if_neg hlist]

/-! ## Placeholders -/

/-- A placeholder of a map: a name and an expression. -/
structure Placeholder where
  name : String
  value : String
  name_ne : name.toList ≠ []
  name_plain : ∀ c ∈ name.toList, Text.isBlank c = false ∧ c ∉ marks ∧ c ≠ ':'
  value_plain : ∀ c ∈ value.toList, c ∉ marks
  value_trim : Text.trim value.toList = value.toList

namespace Placeholder

def pair (p : Placeholder) : String × String := (p.name, p.value)

def text (p : Placeholder) : List Char := p.name.toList ++ ':' :: ' ' :: p.value.toList

end Placeholder

def mapText (ps : List Placeholder) : List Char :=
  '{' :: (listed (ps.map Placeholder.text) ++ ['}'])

theorem mem_listed {ps : List (List Char)} (h : c ∈ listed ps) :
    c = ',' ∨ c = ' ' ∨ ∃ p ∈ ps, c ∈ p := by
  induction ps with
  | nil => simp [listed] at h
  | cons p ps ih =>
    cases ps with
    | nil => exact .inr (.inr ⟨p, List.mem_cons_self, by rwa [listed_singleton] at h⟩)
    | cons q ps =>
      rw [listed_cons_cons, List.mem_append, List.mem_cons, List.mem_cons] at h
      rcases h with h | h | h | h
      · exact .inr (.inr ⟨p, List.mem_cons_self, h⟩)
      · exact .inl h
      · exact .inr (.inl h)
      · rcases ih h with h | h | ⟨p', hp', hc⟩
        · exact .inl h
        · exact .inr (.inl h)
        · exact .inr (.inr ⟨p', List.mem_cons_of_mem p hp', hc⟩)

theorem Placeholder.not_mem_marks (p : Placeholder) (h : c ∈ p.text) : c ∉ marks := by
  rw [text, List.mem_append, List.mem_cons, List.mem_cons] at h
  rcases h with h | rfl | rfl | h
  · exact (p.name_plain c h).2.1
  · decide
  · decide
  · exact p.value_plain c h

theorem not_mem_marks_of_mem_mapText {ps : List Placeholder}
    (h : c ∈ listed (ps.map Placeholder.text)) : c ∉ marks ∨ c = ',' := by
  rcases mem_listed h with rfl | rfl | ⟨t, ht, hc⟩
  · exact .inr rfl
  · exact .inl (by decide)
  · obtain ⟨p, -, rfl⟩ := List.mem_map.1 ht
    exact .inl (p.not_mem_marks hc)

theorem balanced_mapText (ps : List Placeholder) : Balanced (mapText ps) := by
  refine balanced_of_unmarked fun c hc => ?_
  rw [mapText, List.mem_cons, List.mem_append, List.mem_singleton] at hc
  rcases hc with rfl | hc | rfl
  · decide
  · rcases not_mem_marks_of_mem_mapText hc with hmarks | rfl
    · simp only [marks, List.mem_cons, not_or] at hmarks
      simp [isQuote, hmarks]
    · decide
  · decide

theorem passesOver_mapText (ps : List Placeholder) :
    PassesOver (splitCommas none 0) (mapText ps) := by
  intro r
  -- the braces are one level deep, where commas do not count
  have hopen (s : List Char) :
      splitCommas none 0 ('{' :: s) = Prod.map ('{' :: ·) id (splitCommas none 1 s) := rfl
  have hclose (s : List Char) :
      splitCommas none 1 ('}' :: s) = Prod.map ('}' :: ·) id (splitCommas none 0 s) := rfl
  have hinside : ∀ c ∈ listed (ps.map Placeholder.text), c ∉ marks ∨ (c = ',' ∧ 1 ≠ 0) :=
    fun c hc => (not_mem_marks_of_mem_mapText hc).imp_right fun h => ⟨h, by decide⟩
  rw [mapText, List.cons_append, hopen, List.append_assoc, splitCommas_unmarked hinside,
    List.singleton_append, hclose]
  simp [Prod.map]

theorem trim_mapText (ps : List Placeholder) : Text.trim (mapText ps) = mapText ps := by
  refine Text.stripWhile_of_ends ?_ ?_
  · rintro c h
    cases h
    decide
  · intro c h
    rw [mapText, ← List.cons_append, List.getLast?_concat, Option.some.injEq] at h
    exact h ▸ by decide

/-! ## Maps read back -/

theorem passesOver_splitOutsideBraces (h : ∀ c ∈ s, c ∉ marks) :
    PassesOver (splitOutsideBraces 0) s := by
  intro r
  induction s with
  | nil => rfl
  | cons c s ih =>
    rw [List.forall_mem_cons] at h
    obtain ⟨hc, hs⟩ := h
    simp only [marks, List.mem_cons, not_or] at hc
    simp [splitOutsideBraces, hc, ih hs, Prod.map]

theorem splitsAtCommas_splitOutsideBraces : SplitsAtCommas (splitOutsideBraces 0) where
  nil := rfl
  comma _ := rfl
  space := passesOver_splitOutsideBraces (by simp [marks])

/-- Blanks before a pair do not count. -/
theorem placeholder?_blank {u : List Char} (hu : Text.allBlank u = true) (s : List Char) :
    placeholder? (u ++ s) = placeholder? s := by
  have hcolons : ':' ∉ u := fun hmem => absurd (List.all_eq_true.1 hu _ hmem) (by decide)
  have hstrip (name : List Char) :
      Text.stripWhile (fun c => Text.isBlank c || isQuote c) (u ++ name) =
        Text.stripWhile (fun c => Text.isBlank c || isQuote c) name :=
    Text.stripWhile_append_left (fun c hc => by simp [List.all_eq_true.1 hu c hc]) name
  rw [placeholder?, placeholder?]
  by_cases hcolon : ':' ∈ s
  · obtain ⟨name, value, rfl, hname⟩ := List.eq_append_cons_of_mem hcolon
    rw [← List.append_assoc, Text.cutAt?_append (by simp [hcolons, hname]),
      Text.cutAt?_append hname]
    dsimp only
    rw [hstrip]
  · rw [Text.cutAt?_eq_none (by simp [hcolons, hcolon]), Text.cutAt?_eq_none hcolon]

/-- A name that is read as it stands. -/
structure IsBare (name : List Char) : Prop where
  ne_nil : name ≠ []
  plain : ∀ c ∈ name, Text.isBlank c = false ∧ c ∉ marks ∧ c ≠ ':'

theorem IsBare.placeholder? {name : List Char} (h : IsBare name) (value : List Char) :
    placeholder? (name ++ ':' :: value) =
      some (String.ofList name, String.ofList (Text.trim value)) := by
  have hcolon : ':' ∉ name := fun hmem => (h.plain _ hmem).2.2 rfl
  have hplain : ∀ c ∈ name, (Text.isBlank c || isQuote c) = false := fun c hc => by
    obtain ⟨hblank, hmarks, -⟩ := h.plain c hc
    rw [hblank, isQuote_eq_false hmarks, Bool.false_or]
  have hstrip : Text.stripWhile (fun c => Text.isBlank c || isQuote c) name = name :=
    Text.stripWhile_of_ends (fun c hc => hplain c (List.mem_of_mem_head? hc))
      fun c hc => hplain c (List.mem_of_mem_getLast? hc)
  rw [Fusion.placeholder?, Text.cutAt?_append hcolon]
  dsimp only
  rw [hstrip, if_neg (by simpa using h.ne_nil)]

/-- Blanks around the value do not count. -/
theorem Placeholder.placeholder?_eq {p : Placeholder} {value : List Char}
    (h : Text.trim value = p.value.toList) :
    placeholder? (p.name.toList ++ ':' :: value) = some p.pair := by
  have hname : IsBare p.name.toList := ⟨p.name_ne, p.name_plain⟩
  rw [hname.placeholder?, h, String.ofList_toList, String.ofList_toList]
  rfl

/-- The last placeholder of a map loses the blank of an empty value. -/
theorem Placeholder.exists_value (p : Placeholder) :
    ∃ value gap, p.text = p.name.toList ++ ':' :: value ++ gap ∧ Text.allBlank gap = true ∧
      Text.trim value = p.value.toList ∧
      ∀ c, (p.name.toList ++ ':' :: value).getLast? = some c →
        Text.isBlank c = false ∧ c ∉ marks := by
  by_cases hempty : p.value.toList = []
  · refine ⟨[], [' '], by simp [text, hempty], by decide, hempty.symm, ?_⟩
    intro c hc
    rw [List.getLast?_concat, Option.some.injEq] at hc
    exact hc ▸ by decide
  · refine ⟨' ' :: p.value.toList, [], (List.append_nil _).symm, by decide, ?_, ?_⟩
    · exact (Text.trim_space _).trans p.value_trim
    · intro c hc
      have hfront : p.name.toList ++ ':' :: ' ' :: p.value.toList =
          (p.name.toList ++ [':', ' ']) ++ p.value.toList := by simp
      rw [hfront, List.getLast?_append_of_ne_nil _ hempty] at hc
      have hblank : Text.isBlank c = false := by
        rw [← p.value_trim] at hc
        exact Text.of_getLast?_stripWhile hc
      exact ⟨hblank, p.value_plain c (List.mem_of_mem_getLast? hc)⟩

theorem exists_listed_concat (ps : List (List Char)) :
    ∃ front, ∀ q, listed (ps ++ [q]) = front ++ q := by
  induction ps with
  | nil => exact ⟨[], fun q => by simp [listed_singleton]⟩
  | cons p ps ih =>
    obtain ⟨front, hfront⟩ := ih
    refine ⟨p ++ ',' :: ' ' :: front, fun q => ?_⟩
    have hlisted : listed (p :: (ps ++ [q])) = p ++ ',' :: ' ' :: listed (ps ++ [q]) := by
      cases ps <;> exact listed_cons_cons _ _ _
    rw [List.cons_append, hlisted, hfront]
    simp

theorem head?_listed {p : List Char} (hne : p ≠ []) (ps : List (List Char)) :
    (listed (p :: ps)).head? = p.head? := by
  cases ps with
  | nil => rw [listed_singleton]
  | cons q ps => rw [listed_cons_cons, List.head?_append_of_ne_nil _ hne]

/-- What is stripped at the ends of a map. -/
def isPadding (c : Char) : Bool := c = '{' || c = '}' || Text.isBlank c

theorem isPadding_eq_false (hblank : Text.isBlank c = false) (h : c ∉ marks) :
    isPadding c = false := by
  simp only [marks, List.mem_cons, not_or] at h
  simp [isPadding, h, hblank]

theorem Placeholder.head_name (p : Placeholder) (h : p.name.toList.head? = some c) :
    isPadding c = false := by
  obtain ⟨hblank, hmarks, -⟩ := p.name_plain c (List.mem_of_mem_head? h)
  exact isPadding_eq_false hblank hmarks

/-- A list that begins with a placeholder begins with its name. -/
theorem head_listed_text {front : List Placeholder} {last : Placeholder} {value : List Char}
    (h : (listed (front.map Placeholder.text ++ [last.name.toList ++ ':' :: value])).head? =
      some c) : isPadding c = false := by
  cases front with
  | nil =>
    rw [List.map_nil, List.nil_append, listed_singleton,
      List.head?_append_of_ne_nil _ last.name_ne] at h
    exact last.head_name h
  | cons p front =>
    have htext : p.text ≠ [] := by simp [Placeholder.text]
    rw [List.map_cons, List.cons_append, head?_listed htext, Placeholder.text,
      List.head?_append_of_ne_nil _ p.name_ne] at h
    exact p.head_name h

/-- The body of a map: its placeholders, but for the blank behind an empty last value. -/
theorem stripWhile_mapText (front : List Placeholder) (last : Placeholder) :
    ∃ value, Text.trim value = last.value.toList ∧
      (∀ c ∈ last.name.toList ++ ':' :: value, c ∉ marks) ∧
      Text.stripWhile isPadding (mapText (front ++ [last])) =
        listed (front.map Placeholder.text ++ [last.name.toList ++ ':' :: value]) := by
  obtain ⟨value, gap, htext, hgap, hvalue, hlast⟩ := last.exists_value
  have hmarks : ∀ c ∈ last.name.toList ++ ':' :: value, c ∉ marks := fun c hc =>
    last.not_mem_marks (htext ▸ List.mem_append_left gap hc)
  refine ⟨value, hvalue, hmarks, ?_⟩
  -- the blank and the brace behind the last value are stripped together
  obtain ⟨start, hstart⟩ := exists_listed_concat (front.map Placeholder.text)
  have hmap : mapText (front ++ [last]) =
      ['{'] ++ (listed (front.map Placeholder.text ++ [last.name.toList ++ ':' :: value]) ++
        (gap ++ ['}'])) := by
    rw [mapText, List.map_append, List.map_singleton, hstart, hstart, htext]
    simp
  have hpadding : ∀ c ∈ gap ++ ['}'], isPadding c = true := by
    intro c hc
    rcases List.mem_append.1 hc with hc | hc
    · simp [isPadding, List.all_eq_true.1 hgap c hc]
    · rw [List.mem_singleton.1 hc]
      decide
  have hbrace : ∀ c ∈ ['{'], isPadding c = true := List.all_eq_true.1 (by decide)
  rw [hmap, Text.stripWhile_append_left hbrace, Text.stripWhile_append_right hpadding]
  refine Text.stripWhile_of_ends (fun c hc => head_listed_text hc) fun c hc => ?_
  rw [hstart, List.getLast?_append_of_ne_nil _ (by simp)] at hc
  obtain ⟨hblank, hmarks⟩ := hlast c hc
  exact isPadding_eq_false hblank hmarks

theorem placeholders_of_split {ps : List Placeholder} {pieces : List Char × List (List Char)}
    (h : splitOutsideBraces 0 (Text.stripWhile isPadding (mapText ps)) = pieces) :
    placeholders (mapText ps) = Dict.ofList ((pieces.1 :: pieces.2).filterMap placeholder?) := by
  rw [placeholders, trim_mapText, ← h]
  rfl

theorem placeholders_mapText (ps : List Placeholder) :
    placeholders (mapText ps) = Dict.ofList (ps.map Placeholder.pair) := by
  rcases List.eq_nil_or_concat' ps with rfl | ⟨front, last, rfl⟩
  · rfl
  obtain ⟨value, hvalue, hmarks, hstrip⟩ := stripWhile_mapText front last
  -- what is left are the pieces that were listed, but for the end of the last one
  obtain ⟨piece, pieces, hpieces⟩ := List.exists_cons_of_ne_nil
    (List.concat_ne_nil (last.name.toList ++ ':' :: value) (front.map Placeholder.text))
  have hpass : ∀ q ∈ piece :: pieces, PassesOver (splitOutsideBraces 0) q := by
    intro q hq
    rw [← hpieces, List.mem_append, List.mem_singleton] at hq
    refine passesOver_splitOutsideBraces ?_
    rcases hq with hq | rfl
    · obtain ⟨p, -, rfl⟩ := List.mem_map.1 hq
      exact fun c => p.not_mem_marks
    · exact hmarks
  have hsplit := splitsAtCommas_splitOutsideBraces.listed hpass
  rw [← hpieces, ← hstrip] at hsplit
  have hspace : (pieces.map (' ' :: ·)).filterMap placeholder? = pieces.filterMap placeholder? := by
    rw [List.filterMap_map]
    exact List.filterMap_congr fun q _ => placeholder?_blank (u := [' ']) (by decide) q
  have hlast : placeholder? (last.name.toList ++ ':' :: value) = some last.pair :=
    Placeholder.placeholder?_eq hvalue
  have hfront : (front.map Placeholder.text).filterMap placeholder? =
      front.map Placeholder.pair := by
    rw [List.filterMap_map, List.filterMap_eq_map_iff_forall_eq_some]
    exact fun p _ => Placeholder.placeholder?_eq ((Text.trim_space _).trans p.value_trim)
  have hpairs : (piece :: pieces).filterMap placeholder? =
      (front ++ [last]).map Placeholder.pair := by
    rw [← hpieces, List.filterMap_append, hfront, List.map_append]
    simp [hlast]
  rw [placeholders_of_split hsplit, List.filterMap_cons, hspace, ← List.filterMap_cons, hpairs]

/-! ## The reference of a call -/

/-- The arguments of a call, with its strings in quotes. -/
def translateArguments (id fallback : String) (ps : List Placeholder) (source package : String) :
    List Char :=
  listed [quoted id, quoted fallback, mapText ps, quoted source, quoted package]

section Translate

variable (id fallback source package : String) (ps : List Placeholder)

theorem balanced_listed {ts : List (List Char)} (h : ∀ t ∈ ts, Balanced t) :
    Balanced (listed ts) := by
  induction ts with
  | nil => exact .nil
  | cons t ts ih =>
    rw [List.forall_mem_cons] at h
    cases ts with
    | nil =>
      rw [listed_singleton]
      exact h.1
    | cons u ts =>
      rw [listed_cons_cons]
      exact h.1.append (.char rfl (by decide) (by decide)
        (.char rfl (by decide) (by decide) (ih h.2)))

theorem balanced_translateArguments :
    Balanced (translateArguments id fallback ps source package) :=
  balanced_listed (by simp [balanced_quoted, balanced_mapText])

theorem splitArguments_translateArguments :
    splitArguments (translateArguments id fallback ps source package) =
      [quoted id, quoted fallback, mapText ps, quoted source, quoted package] :=
  splitArguments_listed (by simp) (by simp [quoted, mapText])
    (by simp [passesOver_quoted, passesOver_mapText]) (by simp [trim_quoted, trim_mapText])

/-- What a call with these arguments says. -/
def translateCall : RawCall where
  id := some id
  fallback := some fallback
  placeholders := Dict.ofList (ps.map Placeholder.pair)
  source := some source
  package := some package
  isPlural := false

theorem readInline_translateArguments (after : List Char) :
    readInline false ('(' :: (translateArguments id fallback ps source package ++ ')' :: after)) =
      some (translateCall id fallback source package ps, after) := by
  have hcut := cutCall?_balanced (u := []) nofun
    (balanced_translateArguments id fallback source package ps) after
  rw [List.nil_append] at hcut
  rw [readInline, hcut, Option.map_some]
  dsimp only [RawCall.ofArguments]
  rw [splitArguments_translateArguments]
  simp [literal?_quoted, placeholders_mapText, translateCall]

end Translate

def tokens : List String := ((inlineTokens ++ fluentTokens).map Prod.fst).eraseDups

/-- The places of all tokens in a text. -/
def tokenPlaces (text : List Char) : List Nat := tokens.flatMap fun token => places token text

theorem atWordStart_length {before : List Char}
    (h : ∀ c, before.getLast? = some c → (c.isAlphanum || c == '_') = false) (r : List Char) :
    atWordStart (before ++ r) before.length = true := by
  rcases List.eq_nil_or_concat' before with rfl | ⟨front, c, rfl⟩
  · rfl
  · have hc := h c List.getLast?_concat
    simp [atWordStart, hc]

/-- Where a single token stands, it is the one that is known. -/
theorem Alone.of_tokenPlaces {text : List Char} {token : String} {start : Nat}
    (htoken : token ∈ tokens) (hplace : start ∈ places token text)
    (hone : (tokenPlaces text).length = 1) (hword : atWordStart text start = true) :
    Alone text token start := by
  obtain ⟨front, rest, htokens⟩ := List.append_of_mem htoken
  rw [tokenPlaces, htokens, List.flatMap_append, List.flatMap_cons, List.length_append,
    List.length_append] at hone
  have hpositive := List.length_pos_of_mem hplace
  have hfront : front.flatMap (places · text) = [] := List.length_eq_zero_iff.1 (by omega)
  have hrest : rest.flatMap (places · text) = [] := List.length_eq_zero_iff.1 (by omega)
  have hself : places token text = [start] := by
    obtain ⟨found, hfound⟩ := List.length_eq_one_iff.1
      (Nat.le_antisymm (by omega) hpositive : (places token text).length = 1)
    rw [hfound, List.mem_singleton] at hplace
    rw [hfound, hplace]
  refine ⟨fun entry hentry => ?_, hword⟩
  split
  · next heq => rw [heq, hself]
  · next hne =>
    have hmem : entry.1 ∈ front ++ token :: rest :=
      htokens ▸ List.mem_eraseDups.2 (List.mem_map_of_mem hentry)
    rcases List.mem_append.1 hmem with hmem | hmem
    · exact List.flatMap_eq_nil_iff.1 hfront _ hmem
    · exact List.flatMap_eq_nil_iff.1 hrest _ ((List.mem_cons.1 hmem).resolve_left hne)

/-- The references of a text in which a single token stands, before a call of which the strings are
in quotes. There is at most one. It has the key that its strings name, and of each name of a
placeholder the last value, in the place of the first. -/
theorem collectFusion_translate {id fallback source package : String} {ps : List Placeholder}
    {before after : List Char} {text : String}
    (htext : text.toList = before ++ ("I18n.translate".toList ++
      ('(' :: (translateArguments id fallback ps source package ++ ')' :: after))))
    (hbefore : ∀ c, before.getLast? = some c → (c.isAlphanum || c == '_') = false)
    (hone : (tokenPlaces text.toList).length = 1) (file : String) :
    collectFusion file text =
        ((resolveKey id (some package) (some source)).map fun key =>
          { key, file
            line := before.count '\n' + 1
            format := .fusion
            fallback := some fallback
            placeholders := Dict.ofList (ps.map Placeholder.pair)
            isPlural := false }).toList ∧
      (Dict.ofList (ps.map Placeholder.pair)).keys = (ps.map Placeholder.name).eraseDups ∧
      ∀ name, (Dict.ofList (ps.map Placeholder.pair)).get? name =
        ((ps.filter fun p => p.name = name).getLast?).map Placeholder.value := by
  have hplace : before.length ∈ places "I18n.translate" text.toList := by
    refine List.mem_filter.2 ⟨?_, ?_⟩
    · simp [htext]
    · rw [htext, List.drop_left, List.isPrefixOf_iff_prefix]
      exact List.prefix_append _ _
  have hword : atWordStart text.toList before.length = true := by
    rw [htext]
    exact atWordStart_length hbefore _
  have halone := Alone.of_tokenPlaces (by decide) hplace hone hword
  have hcalls := halone.calls_inline (by decide) htext
    (readInline_translateArguments id fallback source package ps after)
  have hline : lineAt text.toList before.length = before.count '\n' + 1 := by
    rw [lineAt, htext, List.take_left]
  refine ⟨?_, ?_, ?_⟩
  · rw [collectFusion_of_calls hcalls, reference?, translateCall, Option.bind_some, hline]
  · rw [Dict.keys_ofList, List.map_map]
    rfl
  · intro name
    rw [Dict.get?_ofList, List.filter_map, List.getLast?_map, Option.map_map]
    rfl

/-- Two values for one name, and one that is empty. -/
def countPlaceholders : List Placeholder :=
  [⟨"n", "1", by decide, by simp [marks, Text.isBlank], by simp [marks], by decide⟩,
    ⟨"m", "", by decide, by simp [marks, Text.isBlank], by simp [marks], by decide⟩,
    ⟨"n", "k + 2", by decide, by simp [marks, Text.isBlank], by simp [marks], by decide⟩]

def countText : String :=
  "\n$\x7bI18n.translate('it\\'s', 'a, (b\\\\', \x7bn: 1, m: , n: k + 2\x7d, 'M', 'A.Site')\x7d"

/-- A message of which the strings hold a quote, a comma, a parenthesis and a backslash. -/
theorem collectFusion_translate_counts :
    collectFusion "A.fusion" countText =
      [{ key := ⟨"A.Site", "M", "it's"⟩
         format := .fusion
         file := "A.fusion"
         line := 2
         fallback := some "a, (b\\"
         placeholders := ⟨[("n", "k + 2"), ("m", "")]⟩ }] := by
  have hbefore : ∀ c, "\n$\x7b".toList.getLast? = some c → (c.isAlphanum || c == '_') = false := by
    rintro c ⟨⟩
    decide
  have hcollect := @collectFusion_translate "it's" "a, (b\\" "M" "A.Site" countPlaceholders
    "\n$\x7b".toList ['\x7d'] countText (by decide) hbefore (by decide +kernel) "A.fusion"
  rw [hcollect.1]
  decide

end TranslationAudit.Fusion
