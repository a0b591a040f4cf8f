import TranslationAudit.Collect.NodeType
import TranslationAudit.Proofs.Text.Ascii
import TranslationAudit.Proofs.Text.Blank
import TranslationAudit.Proofs.Text.Cut
import TranslationAudit.Proofs.Text.Strip

/-! # Lines of keys

* `NodeType.Reads`: what a line says. `NodeType.reads_keyLine` reads it off the line of a key.
* `NodeType.Word`: a key without quotes. `NodeType.written_quoted`: a key in quotes.
* `NodeType.exists_deriveId?`: a label below words has an identifier, which is a word itself.
-/

namespace TranslationAudit.NodeType

open Text

variable {c q : Char} {raw key tail s t : List Char}

/-! ## Trimmed lines -/

theorem startsValue_of_allBlank (h : allBlank tail = true) : startsValue tail = true := by
  cases tail with
  | nil => rfl
  | cons c tail =>
    rw [allBlank, List.all_cons, Bool.and_eq_true] at h
    exact h.1

theorem startsValue_trimEnd (h : startsValue tail = true) : startsValue (trimEnd tail) = true := by
  have hfront : trimEnd tail <+: tail := List.rdropWhile_prefix _ _
  cases htrim : trimEnd tail with
  | nil => rfl
  | cons c t =>
    obtain ⟨r, hr⟩ := hfront
    rw [htrim] at hr
    rw [← hr] at h
    exact h

theorem trim_eq_of_ends (hhead : ∀ c, s.head? = some c → isBlank c = false)
    (hlast : ∀ c, t.getLast? = some c → isBlank c = false) (hc : isBlank c = false) :
    trim (s ++ c :: t) = s ++ c :: t := by
  refine stripWhile_of_ends ?_ ?_
  · intro d hd
    cases s with
    | nil =>
      cases hd
      exact hc
    | cons e s => exact hhead d hd
  · intro d hd
    rw [List.getLast?_append_cons] at hd
    cases t with
    | nil =>
      cases hd
      exact hc
    | cons e t => exact hlast d hd

/-! ## Lines -/

/-- The line of a key, with what follows its colon. -/
def keyLine (indent : Nat) (raw tail : List Char) : List Char :=
  List.replicate indent ' ' ++ (raw ++ ':' :: tail)

/-- What a line says: a key at an indent, and a value if there is one. -/
structure Reads (line : List Char) (indent : Nat) (key value : List Char) : Prop where
  notSkipped : isSkipped (trim line) = false
  indentOf : indentOf line = indent
  splitKeyLine? : splitKeyLine? (trim line) = some (String.ofList key, value)

/-- How a key is written: what a line says that begins with it. -/
structure Written (raw key : List Char) : Prop where
  head : ∃ c r, raw = c :: r ∧ isBlank c = false ∧ c ≠ '#'
  splitKeyLine? : ∀ t, startsValue t = true →
    splitKeyLine? (raw ++ ':' :: t) = some (String.ofList key, trim t)

theorem reads_keyLine (h : Written raw key) (htail : startsValue tail = true) (indent : Nat) :
    Reads (keyLine indent raw tail) indent key (trim tail) := by
  obtain ⟨c, r, hraw, hblank, hcomment⟩ := h.head
  have hspaces : allBlank (List.replicate indent ' ') = true := by
    simp [allBlank, show isBlank ' ' = true from rfl]
  have htrim : trim (keyLine indent raw tail) = raw ++ ':' :: trimEnd tail := by
    rw [keyLine, trim_blank_append hspaces]
    nth_rewrite 1 [← trimEnd_append_rtakeWhile tail]
    rw [← List.cons_append, ← List.append_assoc, trim_append_blank (allBlank_rtakeWhile tail)]
    refine trim_eq_of_ends ?_ ?_ (by decide)
    · rintro d hd
      rw [hraw] at hd
      cases hd
      exact hblank
    · exact fun d => of_getLast?_dropEndWhile
  refine ⟨?_, ?_, ?_⟩
  · rw [htrim, hraw]
    simpa [isSkipped] using hcomment
  · have hc : c ≠ ' ' := by
      rintro rfl
      cases hblank
    rw [indentOf, keyLine, hraw, List.takeWhile_append_of_pos (by simp)]
    simp [hc]
  · rw [htrim, h.splitKeyLine? _ (startsValue_trimEnd htail), trim_trimEnd]

/-! ## Words -/

/-- The characters of keys without quotes. -/
def isKeyChar (c : Char) : Bool := c.isAlphanum || c == '_' || c == '-' || c == '.'

theorem toNat_lt_of_isKeyChar (h : isKeyChar c = true) : c.toNat < 0x80 := by
  delta isKeyChar Char.isAlphanum Char.isAlpha Char.isUpper Char.isLower Char.isDigit at h
  simp only [Bool.or_eq_true, Bool.and_eq_true, decide_eq_true_eq, beq_iff_eq,
    UInt32.le_iff_toNat_le, ge_iff_le] at h
  have hbounds : 'Z'.val.toNat = 90 ∧ 'z'.val.toNat = 122 ∧ '9'.val.toNat = 57 := ⟨rfl, rfl, rfl⟩
  obtain (((h | h) | rfl) | rfl) | rfl := h
  · rw [Char.toNat]
    omega
  · rw [Char.toNat]
    omega
  all_goals decide

theorem not_isBlank_of_isKeyChar (h : isKeyChar c = true) : isBlank c = false :=
  of_ascii (fun c => isKeyChar c = true → isBlank c = false) (by decide)
    (toNat_lt_of_isKeyChar h) h

theorem ne_of_isKeyChar (h : isKeyChar c = true) : c ∉ [':', '#', '\'', '"'] := by
  have hmarks : [':', '#', '\'', '"'].all (!isKeyChar ·) = true := by decide
  intro hmem
  simpa [h] using List.all_eq_true.1 hmarks c hmem

/-- A key without quotes. -/
structure Word where
  text : List Char
  ne_nil : text ≠ []
  chars : ∀ c ∈ text, isKeyChar c = true

theorem trim_of_isKeyChar (h : ∀ c ∈ s, isKeyChar c = true) : trim s = s :=
  stripWhile_of_ends
    (fun c hc => not_isBlank_of_isKeyChar (h c (List.mem_of_mem_head? hc)))
    (fun c hc => not_isBlank_of_isKeyChar (h c (List.mem_of_getLast? hc)))

theorem Word.written (w : Word) : Written w.text w.text := by
  obtain ⟨text, hne, hchars⟩ := w
  obtain ⟨c, r, rfl⟩ := List.exists_cons_of_ne_nil hne
  have hmarks := ne_of_isKeyChar (hchars c List.mem_cons_self)
  simp only [List.mem_cons, List.not_mem_nil, or_false, not_or] at hmarks
  refine ⟨⟨c, r, rfl, not_isBlank_of_isKeyChar (hchars c List.mem_cons_self), hmarks.2.1⟩, ?_⟩
  intro t ht
  have hquoted : cutQuotedKey? (c :: r ++ ':' :: t) = none := by
    rw [List.cons_append, cutQuotedKey?, if_neg (by simp [hmarks])]
  have hplain : cutPlainKey? (c :: r ++ ':' :: t) = some (c :: r, t) := by
    have hcolons : ∀ d ∈ c :: r, decide (d ≠ ':') = true := by
      intro d hd
      have hcolon := ne_of_isKeyChar (hchars d hd)
      simp only [List.mem_cons, not_or] at hcolon
      exact decide_eq_true hcolon.1
    have hhead : (c :: r ++ ':' :: t).takeWhile (· ≠ ':') = c :: r :=
      takeWhile_append_cons hcolons (by decide) t
    rw [cutPlainKey?, hhead]
    simp only [List.drop_left, List.isEmpty_cons, cutKeyTail?, ht]
    simp
  have hnormal : normalizeKey (c :: r) = c :: r := by
    rw [normalizeKey, trim_of_isKeyChar hchars]
    cases r with
    | nil => rfl
    | cons d r => simp [hmarks]
  simp only [splitKeyLine?, hquoted, hplain, Option.none_or, Option.map_some, hnormal]

/-! ## Names in quotes -/

/-- A quote that can stand around a key. -/
def IsQuote (q : Char) : Prop := q = '"' ∨ q = '\''

theorem written_quoted (hq : IsQuote q) (hne : s ≠ []) (hs : q ∉ s) :
    Written (q :: (s ++ [q])) s := by
  have hblank : isBlank q = false := by
    obtain rfl | rfl := hq <;> rfl
  have hcomment : q ≠ '#' := by
    obtain rfl | rfl := hq <;> decide
  refine ⟨⟨q, _, rfl, hblank, hcomment⟩, ?_⟩
  intro t ht
  obtain ⟨c, s, rfl⟩ := List.exists_cons_of_ne_nil hne
  have hcut : cutAt? q (c :: s ++ q :: ':' :: t) = some (c :: s, ':' :: t) := cutAt?_append hs _
  have htext : q :: (c :: s ++ [q]) ++ ':' :: t = q :: (c :: s ++ q :: ':' :: t) := by simp
  have hquoted : cutQuotedKey? (q :: (c :: s ++ q :: ':' :: t)) = some (q :: c :: s ++ [q], t) := by
    simp only [cutQuotedKey?, hcut, ht, if_true]
    exact if_pos hq
  have hnormal : normalizeKey (q :: c :: s ++ [q]) = c :: s := by
    have htrim : trim (q :: c :: s ++ [q]) = q :: c :: s ++ [q] :=
      trim_eq_of_ends (by rintro d ⟨⟩; exact hblank) nofun hblank
    rw [normalizeKey, htrim]
    refine (if_pos hq).trans ?_
    change (c :: s ++ [q]).dropLast = c :: s
    rw [List.dropLast_concat]
  rw [htext]
  simp only [splitKeyLine?, hquoted, Option.some_or, Option.map_some, hnormal]

/-! ## Identifiers -/

/-- A text that could be a key without quotes. -/
structure IsWord (s : String) : Prop where
  ne_empty : s ≠ ""
  chars : ∀ c ∈ s.toList, isKeyChar c = true

instance (s : String) : Decidable (IsWord s) :=
  decidable_of_iff (s ≠ "" ∧ s.toList.all isKeyChar = true)
    ⟨fun h => ⟨h.1, List.all_eq_true.1 h.2⟩, fun h => ⟨h.ne_empty, List.all_eq_true.2 h.chars⟩⟩

theorem Word.isWord (w : Word) : IsWord (String.ofList w.text) where
  ne_empty := by simpa using w.ne_nil
  chars := by simpa using w.chars

theorem IsWord.append {s t : String} (hs : IsWord s) (ht : ∀ c ∈ t.toList, isKeyChar c = true) :
    IsWord (s ++ t) := by
  refine ⟨?_, fun c hc => ?_⟩
  · rw [Ne, String.append_eq_empty_iff]
    exact fun h => hs.ne_empty h.1
  · rw [String.toList_append, List.mem_append] at hc
    exact hc.elim (hs.chars c) (ht c)

theorem IsWord.intercalate {words : List String} (hwords : ∀ w ∈ words, IsWord w)
    (hne : words ≠ []) : IsWord (".".intercalate words) := by
  induction words with
  | nil => exact absurd rfl hne
  | cons w words ih =>
    have hw := hwords w List.mem_cons_self
    cases words with
    | nil => rwa [String.intercalate_singleton]
    | cons next words =>
      have hrest := ih (fun w h => hwords w (List.mem_cons_of_mem _ h)) (List.cons_ne_nil _ _)
      rw [String.intercalate_cons_cons]
      exact (hw.append (by simp [isKeyChar])).append hrest.chars

/-- A label below words has an identifier. -/
theorem exists_deriveId? {path : List String} (hpath : ∀ w ∈ path, IsWord w) :
    ∃ id, deriveId? (path ++ ["label"]) = some id ∧ IsWord id := by
  have hlabel : ∀ w ∈ path ++ ["label"], IsWord w := by
    intro w hw
    rw [List.mem_append, List.mem_singleton] at hw
    obtain hw | rfl := hw
    · exact hpath w hw
    · decide
  have hfilter : (path ++ ["label"]).filter (fun s => !s.isEmpty) = path ++ ["label"] := by
    refine List.filter_eq_self.2 fun w hw => ?_
    simpa using (hlabel w hw).ne_empty
  have hne : path ++ ["label"] ≠ [] := by simp
  unfold deriveId?
  rw [hfilter]
  generalize path ++ ["label"] = words at hlabel hne
  have hname (front : String) (hfront : IsWord front) (name : String) (h : name ∈ words) :
      IsWord (front ++ name) := hfront.append (hlabel name h).chars
  split
  · exact absurd rfl hne
  · exact ⟨_, rfl, hname _ (by decide) _ (by simp)⟩
  · exact ⟨_, rfl, hname _ (by decide) _ (by simp)⟩
  · exact ⟨_, rfl, hname _ (by decide) _ (by simp)⟩
  · next rest _ _ =>
    have hui : IsWord "ui." := by decide
    refine ⟨_, rfl, hui.append ?_⟩
    cases rest with
    | nil => simp
    | cons w rest =>
      refine (IsWord.intercalate (fun w h => hlabel w ?_) (List.cons_ne_nil _ _)).chars
      exact List.mem_cons_of_mem _ h
  · exact ⟨_, rfl, hname _ (by decide) _ (by simp)⟩
  · exact ⟨_, rfl, IsWord.intercalate hlabel hne⟩

end TranslationAudit.NodeType
