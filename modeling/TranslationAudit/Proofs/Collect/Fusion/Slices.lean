import TranslationAudit.Collect.Fusion.Checked
import TranslationAudit.Proofs.Collect.Argument
import TranslationAudit.Proofs.Text.Slice

/-! # Slices of a Fusion file

Bytes are tested for ASCII characters only. So a loop that goes from byte to byte, and takes one
byte of a longer character along with a backslash, stops where characters begin.

* `Fusion.Tests`: tests of bytes that are tests of characters.
* `Fusion.cutQuoted`, `Fusion.Checked.isRest_skipQuoted`: where a quoted text ends.
* `Fusion.Checked.readCall?_eq`, `Fusion.Checked.splitArguments?_eq`, `Fusion.Checked.literal?_eq`,
  `Fusion.Checked.placeholders?_eq`: all slices exist and are what is read from lists of characters.
-/

namespace TranslationAudit.Fusion

open Text

variable {q c d : Char} {s t r text rest m : List Char} {b : List UInt8} {x : UInt8}
variable {depth i start : Nat}

/-! ## Tests of bytes -/

/-- A test of bytes that finds the ASCII characters which a test of characters finds. -/
structure Tests (p : UInt8 → Bool) (P : Char → Bool) : Prop where
  ascii : ∀ c : Char, c.toNat < 0x80 → p c.toUInt8 = P c
  byte : ∀ b : UInt8, 0x80 ≤ b.toNat → p b = false
  char : ∀ c : Char, 0x80 ≤ c.toNat → P c = false

namespace Tests

variable {p : UInt8 → Bool} {P : Char → Bool}

theorem lt (h : Tests p P) (hc : P c = true) : c.toNat < 0x80 := by
  refine Nat.lt_of_not_le fun hle => ?_
  rw [h.char c hle] at hc
  cases hc

theorem eq_of_mem (h : Tests p P) (hx : x ∈ String.utf8EncodeChar c) : p x = P c := by
  by_cases hascii : c.toNat < 0x80
  · rw [utf8EncodeChar_of_lt hascii, List.mem_singleton] at hx
    rw [hx, h.ascii c hascii]
  · have hle := Nat.le_of_not_lt hascii
    rw [h.byte x (le_of_mem_utf8EncodeChar hle hx), h.char c hle]

theorem of_mem (h : Tests p P) (hc : P c = false) (hx : x ∈ String.utf8EncodeChar c) :
    p x = false := (h.eq_of_mem hx).trans hc

/-- The bytes that are taken are those of the characters that are. -/
theorem takeWhile_bytes (h : Tests p P) (s : List Char) :
    (bytes s).takeWhile p = bytes (s.takeWhile P) := by
  induction s with
  | nil => rfl
  | cons c s ih =>
    rw [List.takeWhile_cons]
    cases hc : P c with
    | true =>
      have hascii := h.lt hc
      have hbyte : p c.toUInt8 = true := (h.ascii c hascii).trans hc
      rw [bytes_cons, utf8EncodeChar_of_lt hascii, List.singleton_append,
        List.takeWhile_cons_of_pos hbyte, ih, if_pos rfl, bytes_cons, utf8EncodeChar_of_lt hascii]
      rfl
    | false =>
      obtain ⟨x, xs, hx⟩ := List.exists_cons_of_ne_nil (String.utf8EncodeChar_ne_nil (c := c))
      have hbyte : p x = false := h.of_mem hc (hx ▸ List.mem_cons_self)
      rw [bytes_cons, hx, List.cons_append, List.takeWhile_cons, hbyte]
      rfl

/-- The codes are checked one after another. -/
theorem of_codes (hascii : ∀ n < 0x80, p (Char.ofNat n).toUInt8 = P (Char.ofNat n))
    (hbyte : ∀ n < 0x80, p (UInt8.ofNat (n + 0x80)) = false)
    (hchar : ∀ c : Char, 0x80 ≤ c.toNat → P c = false) : Tests p P where
  ascii c hc := of_ascii (fun c => p c.toUInt8 = P c) hascii hc
  byte b hb := by
    have hlt := b.toNat_lt
    have hcode := hbyte (b.toNat - 0x80) (by omega)
    rwa [Nat.sub_add_cancel hb, UInt8.ofNat_toNat] at hcode
  char := hchar

end Tests

theorem ne_of_le {a : Char} (hc : 0x80 ≤ c.toNat) (ha : a.toNat < 0x80) : c ≠ a := by
  rintro rfl
  omega

theorem tests_isSpace : Tests Checked.isSpaceByte isSpace :=
  .of_codes (by decide) (by decide) fun c hc => by
    simp [isSpace, ne_of_le hc (a := ' ') (by decide), ne_of_le hc (a := '\t') (by decide),
      ne_of_le hc (a := '\n') (by decide), ne_of_le hc (a := '\x0c') (by decide),
      ne_of_le hc (a := '\r') (by decide)]

theorem tests_isQuote : Tests Checked.isQuoteByte isQuote :=
  .of_codes (by decide) (by decide) fun c hc => by
    simp [isQuote, ne_of_le hc (a := '\'') (by decide), ne_of_le hc (a := '"') (by decide)]

theorem isAlpha_eq_false (hc : 0x80 ≤ c.toNat) : c.isAlpha = false := by
  have hbounds : 'Z'.val.toNat = 90 ∧ 'z'.val.toNat = 122 := ⟨rfl, rfl⟩
  delta Char.isAlpha Char.isUpper Char.isLower
  simp only [UInt32.le_iff_toNat_le, Char.toNat, Bool.or_eq_false_iff, decide_eq_false_iff_not,
    Bool.and_eq_false_iff, ge_iff_le] at hc ⊢
  omega

theorem tests_isAlpha : Tests Checked.isAlphaByte Char.isAlpha :=
  .of_codes (by decide) (by decide) fun _ => isAlpha_eq_false

/-! ## Quoted texts -/

/-- A quoted text from behind its opening quote on, and what follows it. A text that does not end is
taken whole. -/
def cutQuoted (q : Char) : List Char → List Char × List Char
  | [] => ([], [])
  | c :: r =>
    if c = '\\' then
      match r with
      | [] => ([c], [])
      | d :: t => Prod.map (c :: d :: ·) id (cutQuoted q t)
    else if c = q then ([c], r)
    else Prod.map (c :: ·) id (cutQuoted q r)

theorem cutQuoted_append (q : Char) (s : List Char) :
    (cutQuoted q s).1 ++ (cutQuoted q s).2 = s := by
  fun_induction cutQuoted q s with
  | case1 | case2 | case4 => rfl
  | case3 d t ih => simpa [Prod.map] using ih
  | case5 c r hescape hquote ih => simpa [Prod.map] using ih

theorem length_cutQuoted_le (q : Char) (s : List Char) : (cutQuoted q s).2.length ≤ s.length := by
  have hlength := congrArg List.length (cutQuoted_append q s)
  rw [List.length_append] at hlength
  omega

/-- Texts outside quotes: a quoted text is one step. -/
theorem outside_induction {motive : List Char → Prop} (nil : motive [])
    (char : ∀ c r, isQuote c = false → motive r → motive (c :: r))
    (quoted : ∀ q r, isQuote q = true → motive (cutQuoted q r).2 → motive (q :: r))
    (s : List Char) : motive s := by
  match s with
  | [] => exact nil
  | c :: r =>
    cases hc : isQuote c with
    | false => exact char c r hc (outside_induction nil char quoted r)
    | true => exact quoted c r hc (outside_induction nil char quoted (cutQuoted c r).2)
termination_by s.length
decreasing_by
  · exact Nat.lt_succ_self _
  · exact Nat.lt_succ_of_le (length_cutQuoted_le c r)

theorem cutBalanced?_cutQuoted (q : Char) (depth : Nat) (s : List Char) :
    cutBalanced? (some q) depth s =
      behind (cutQuoted q s).1 (cutBalanced? none depth (cutQuoted q s).2) := by
  fun_induction cutQuoted q s with
  | case1 => rfl
  | case2 => rfl
  | case3 d t ih =>
    rw [cutBalanced?_escaped, ih, behind_behind]
    rfl
  | case4 r hescape => rw [cutBalanced?_inside hescape, if_pos rfl]
  | case5 c r hescape hquote ih =>
    rw [cutBalanced?_inside hescape, if_neg hquote, ih, behind_behind]
    rfl

theorem splitCommas_cutQuoted (q : Char) (depth : Nat) (s : List Char) :
    splitCommas (some q) depth s =
      Prod.map ((cutQuoted q s).1 ++ ·) id (splitCommas none depth (cutQuoted q s).2) := by
  fun_induction cutQuoted q s with
  | case1 => rfl
  | case2 => rfl
  | case3 d t ih => simp [splitCommas, ih, Prod.map]
  | case4 r hescape => rw [splitCommas_inside hescape, if_pos rfl]; rfl
  | case5 c r hescape hquote ih =>
    rw [splitCommas_inside hescape, if_neg hquote, ih]
    rfl

namespace Checked

theorem skipQuoted_of_getElem? (h : b[i]? = some x) (quote : UInt8) :
    skipQuoted b quote i =
      if x = '\\'.toUInt8 then skipQuoted b quote (i + 2)
      else if x = quote then i + 1
      else skipQuoted b quote (i + 1) := by
  obtain ⟨hi, rfl⟩ := List.getElem?_eq_some_iff.1 h
  rw [skipQuoted, dif_pos hi]

theorem skipQuoted_le (b : List UInt8) (quote : UInt8) (i : Nat) :
    skipQuoted b quote i ≤ b.length := by
  fun_induction skipQuoted b quote i with
  | case1 i hi hescape ih => exact ih
  | case2 i hi => exact hi
  | case3 i hi _ _ ih => exact ih
  | case4 => exact Nat.le_refl _

/-- Behind a quoted text a character begins. -/
theorem isRest_skipQuoted (hquote : isQuote q = true) (h : IsRest text i rest) :
    IsRest text (skipQuoted (bytes text) q.toUInt8 i) (cutQuoted q rest).2 := by
  have hascii := tests_isQuote.lt hquote
  fun_induction cutQuoted q rest generalizing i with
  | case1 =>
    rw [skipQuoted, dif_neg h.not_lt, length_bytes, ← h.eq_end]
    exact h
  | case2 =>
    have hend := h.tail_ascii (by decide)
    have hlt := hend.not_lt
    rw [skipQuoted_of_getElem? (h.getElem?_of_ascii (by decide)), if_pos rfl, skipQuoted,
      dif_neg (by omega), length_bytes, ← hend.eq_end]
    exact hend
  | case3 d t ih =>
    -- the backslash takes the first byte of `d` along; the others are above all marks
    have hnext := h.tail_ascii (by decide)
    have hpass : skipQuoted (bytes text) q.toUInt8 (i + 1 + 1) =
        skipQuoted (bytes text) q.toUInt8 (i + 1 + d.utf8Size) := by
      refine hnext.pass_from d.utf8Size_pos fun k x hx hmem => ?_
      rw [List.drop_one] at hmem
      have hle := le_of_mem_tail hmem
      rw [skipQuoted_of_getElem? hx, if_neg, if_neg]
      · rintro rfl
        rw [toNat_toUInt8_of_lt hascii] at hle
        omega
      · rintro rfl
        exact absurd hle (by decide)
    rw [skipQuoted_of_getElem? (h.getElem?_of_ascii (by decide)), if_pos rfl, hpass]
    exact ih hnext.tail
  | case4 r hescape =>
    have hne : q.toUInt8 ≠ '\\'.toUInt8 := by
      intro heq
      refine not_mem_utf8EncodeChar (a := '\\') (by decide) hescape ?_
      rw [utf8EncodeChar_of_lt hascii, heq]
      exact List.mem_singleton_self _
    rw [skipQuoted_of_getElem? (h.getElem?_of_ascii hascii), if_neg hne, if_pos rfl]
    exact h.tail_ascii hascii
  | case5 c r hescape hne ih =>
    have hpass : skipQuoted (bytes text) q.toUInt8 i =
        skipQuoted (bytes text) q.toUInt8 (i + c.utf8Size) := by
      refine h.pass fun k x hx hmem => ?_
      rw [skipQuoted_of_getElem? hx, if_neg, if_neg]
      · rintro rfl
        exact not_mem_utf8EncodeChar hascii hne hmem
      · rintro rfl
        exact not_mem_utf8EncodeChar (by decide) hescape hmem
    rw [hpass]
    exact ih h.tail

/-! ## Lists of arguments -/

theorem skipSpace_of_getElem? (h : b[i]? = some x) :
    skipSpace b i = if isSpaceByte x then skipSpace b (i + 1) else i := by
  obtain ⟨hi, rfl⟩ := List.getElem?_eq_some_iff.1 h
  rw [skipSpace, dif_pos hi]

theorem skipSpace_le (b : List UInt8) (h : i ≤ b.length) : skipSpace b i ≤ b.length := by
  fun_induction skipSpace b i with
  | case1 i hi _ ih => exact ih hi
  | case2 | case3 => exact h

theorem isRest_skipSpace (h : IsRest text i rest) :
    IsRest text (skipSpace (bytes text) i) (rest.dropWhile isSpace) := by
  induction rest generalizing i with
  | nil =>
    rw [skipSpace, dif_neg h.not_lt]
    exact h
  | cons c r ih =>
    rw [List.dropWhile_cons]
    cases hc : isSpace c with
    | true =>
      have hascii := tests_isSpace.lt hc
      rw [skipSpace_of_getElem? (h.getElem?_of_ascii hascii), tests_isSpace.ascii c hascii, hc]
      exact ih (h.tail_ascii hascii)
    | false =>
      obtain ⟨x, hx, hmem⟩ := h.exists_getElem?
      rw [skipSpace_of_getElem? hx, tests_isSpace.of_mem hc hmem]
      exact h

theorem closing?_of_getElem? (h : b[i]? = some x) (depth : Nat) :
    closing? b depth i =
      if isQuoteByte x then closing? b depth (skipQuoted b x (i + 1))
      else if x = '('.toUInt8 then closing? b (depth + 1) (i + 1)
      else if x = ')'.toUInt8 then if depth - 1 = 0 then some i else closing? b (depth - 1) (i + 1)
      else closing? b depth (i + 1) := by
  obtain ⟨hi, rfl⟩ := List.getElem?_eq_some_iff.1 h
  rw [closing?, dif_pos hi]

theorem map_snd_behind (s : List Char) (found : Option (List Char × List Char)) :
    (behind s found).map Prod.snd = found.map Prod.snd := by
  cases found <;> rfl

/-- The parenthesis that is found is the one before what the reading of characters leaves. -/
theorem closing?_eq (h : IsRest text i rest) (depth : Nat) :
    closing? (bytes text) (depth + 1) i =
      ((cutBalanced? none depth rest).map Prod.snd).map fun left =>
        byteLength text - byteLength left - 1 := by
  induction rest using outside_induction generalizing i depth with
  | nil =>
    rw [closing?, dif_neg h.not_lt]
    rfl
  | quoted q r hquote ih =>
    have hascii := tests_isQuote.lt hquote
    have hrest := isRest_skipQuoted hquote (h.tail_ascii hascii)
    rw [closing?_of_getElem? (h.getElem?_of_ascii hascii), tests_isQuote.ascii q hascii, hquote,
      if_pos rfl, ih hrest, cutBalanced?_quote hquote, cutBalanced?_cutQuoted,
      map_snd_behind, map_snd_behind]
  | char c r hquote ih =>
    by_cases hopen : c = '('
    · subst hopen
      rw [closing?_of_getElem? (h.getElem?_of_ascii (by decide)), if_neg (by decide), if_pos rfl,
        ih (h.tail_ascii (by decide)), cutBalanced?_open, map_snd_behind]
    by_cases hclose : c = ')'
    · subst hclose
      have hnext := h.tail_ascii (by decide)
      rw [closing?_of_getElem? (h.getElem?_of_ascii (by decide)), if_neg (by decide),
        if_neg (by decide), if_pos rfl, Nat.add_sub_cancel]
      cases depth with
      | zero =>
        have hcut : cutBalanced? none 0 (')' :: r) = some ([], r) := rfl
        rw [if_pos rfl, hcut, Option.map_some, Option.map_some, ← hnext.eq_sub,
          Nat.add_sub_cancel]
      | succ depth => rw [if_neg (Nat.succ_ne_zero _), ih hnext, cutBalanced?_close, map_snd_behind]
    have hpass : closing? (bytes text) (depth + 1) i =
        closing? (bytes text) (depth + 1) (i + c.utf8Size) := by
      refine h.pass fun k x hx hmem => ?_
      rw [closing?_of_getElem? hx, tests_isQuote.of_mem hquote hmem, if_neg (by decide), if_neg,
        if_neg]
      · rintro rfl
        exact not_mem_utf8EncodeChar (by decide) hclose hmem
      · rintro rfl
        exact not_mem_utf8EncodeChar (by decide) hopen hmem
    rw [hpass, ih h.tail, cutBalanced?_char hquote hopen hclose, map_snd_behind]

/-- The list of arguments at an offset is the one at the beginning of what is left there. -/
theorem readCall?_eq (h : IsRest text i rest) :
    readCall? text i =
      some ((cutCall? rest).map fun found =>
        ⟨found.1, byteLength text - byteLength found.2⟩) := by
  have hspace := isRest_skipSpace h
  have hparen := hspace.getElem?_eq_some_iff (a := '(') (by decide)
  rw [readCall?]
  split
  · next hbyte =>
    obtain ⟨r, hr⟩ := List.head?_eq_some_iff.1 (hparen.1 hbyte)
    have hlist : cutCall? rest = cutBalanced? none 0 r := by
      rw [cutCall?, hr]
      rfl
    rw [hr] at hspace
    have hnext := hspace.tail_ascii (by decide)
    rw [closing?_eq hnext 0, hlist]
    cases hcut : cutBalanced? none 0 r with
    | none => rfl
    | some found =>
      obtain ⟨arguments, left⟩ := found
      rw [eq_append_of_cutBalanced? hcut] at hnext
      have hleft := (hnext.append.tail_ascii (by decide)).eq_sub
      have hstop : byteLength text - byteLength left - 1 =
          skipSpace (bytes text) i + 1 + byteLength arguments := by omega
      simp only [Option.map_some]
      rw [hstop, hnext.slice?, hleft]
      rfl
  · next hbyte =>
    rw [cutCall?]
    split
    · next r hr => exact absurd (hparen.2 (by rw [hr]; rfl)) hbyte
    · rfl

/-! ## Arguments -/

theorem tests_isOpen :
    Tests isOpenByte fun c => decide (c = '(' ∨ c = '{' ∨ c = '[') :=
  .of_codes (by decide) (by decide) fun c hc => by
    simp [ne_of_le hc (a := '(') (by decide), ne_of_le hc (a := '{') (by decide),
      ne_of_le hc (a := '[') (by decide)]

theorem tests_isClose :
    Tests isCloseByte fun c => decide (c = ')' ∨ c = '}' ∨ c = ']') :=
  .of_codes (by decide) (by decide) fun c hc => by
    simp [ne_of_le hc (a := ')') (by decide), ne_of_le hc (a := '}') (by decide),
      ne_of_le hc (a := ']') (by decide)]

theorem partsFrom?_of_getElem? (h : (bytes s)[i]? = some x) (depth start : Nat) :
    partsFrom? s depth start i =
      if isQuoteByte x then partsFrom? s depth start (skipQuoted (bytes s) x (i + 1))
      else if isOpenByte x then partsFrom? s (depth + 1) start (i + 1)
      else if isCloseByte x then partsFrom? s (depth - 1) start (i + 1)
      else if x = ','.toUInt8 ∧ depth = 0 then do
        let part ← slice? s start i
        let parts ← partsFrom? s depth (i + 1) (i + 1)
        return trim part :: parts
      else partsFrom? s depth start (i + 1) := by
  obtain ⟨hi, rfl⟩ := List.getElem?_eq_some_iff.1 h
  rw [partsFrom?, dif_pos hi]

/-- The slice from an argument's start up to an offset behind some of its characters. -/
theorem slice?_of_isRest (h : IsRest s start (m ++ rest)) (hi : IsRest s i rest) :
    slice? s start i = some m := by
  rw [hi.eq_sub, ← h.append.eq_sub]
  exact h.slice?

/-- The depth of brackets behind a character outside quotes. -/
def bracketDepth (depth : Nat) (c : Char) : Nat :=
  if c = '(' ∨ c = '{' ∨ c = '[' then depth + 1
  else if c = ')' ∨ c = '}' ∨ c = ']' then depth - 1
  else depth

theorem splitCommas_outside (hquote : isQuote c = false) (hcomma : ¬(c = ',' ∧ depth = 0))
    (r : List Char) :
    splitCommas none depth (c :: r) =
      Prod.map (c :: ·) id (splitCommas none (bracketDepth depth c) r) := by
  simp [splitCommas, hquote, hcomma, bracketDepth, Prod.map]

/-- Where a character outside quotes does not end an argument, the next offset has its depth. -/
theorem partsFrom?_outside (h : IsRest s i (c :: r)) (hquote : isQuote c = false)
    (hcomma : ¬(c = ',' ∧ depth = 0)) (start : Nat) :
    partsFrom? s depth start i = partsFrom? s (bracketDepth depth c) start (i + c.utf8Size) := by
  by_cases hopen : c = '(' ∨ c = '{' ∨ c = '['
  · have hascii : c.toNat < 0x80 := tests_isOpen.lt (decide_eq_true hopen)
    rw [partsFrom?_of_getElem? (h.getElem?_of_ascii hascii), tests_isQuote.ascii c hascii, hquote,
      if_neg (by decide), tests_isOpen.ascii c hascii, if_pos (decide_eq_true hopen), bracketDepth,
      if_pos hopen, utf8Size_of_lt hascii]
  by_cases hclose : c = ')' ∨ c = '}' ∨ c = ']'
  · have hascii : c.toNat < 0x80 := tests_isClose.lt (decide_eq_true hclose)
    rw [partsFrom?_of_getElem? (h.getElem?_of_ascii hascii), tests_isQuote.ascii c hascii, hquote,
      if_neg (by decide), tests_isOpen.ascii c hascii, if_neg (by simpa using hopen),
      tests_isClose.ascii c hascii, if_pos (decide_eq_true hclose), bracketDepth,
      if_neg hopen, if_pos hclose, utf8Size_of_lt hascii]
  rw [bracketDepth, if_neg hopen, if_neg hclose]
  refine h.pass fun k x hx hmem => ?_
  have hbyte : ¬(x = ','.toUInt8 ∧ depth = 0) := by
    rintro ⟨rfl, hdepth⟩
    refine not_mem_utf8EncodeChar (a := ',') (by decide) (fun hc => hcomma ⟨hc, hdepth⟩) hmem
  rw [partsFrom?_of_getElem? hx, tests_isQuote.of_mem hquote hmem,
    tests_isOpen.of_mem (decide_eq_false hopen) hmem,
    tests_isClose.of_mem (decide_eq_false hclose) hmem, if_neg (by decide), if_neg (by decide),
    if_neg (by decide), if_neg hbyte]

theorem partsFrom?_eq (hstart : IsRest s start (m ++ rest)) (h : IsRest s i rest) (depth : Nat) :
    partsFrom? s depth start i =
      some (((m ++ (splitCommas none depth rest).1) :: (splitCommas none depth rest).2).map
        trim) := by
  induction rest using outside_induction generalizing i depth start m with
  | nil =>
    rw [List.append_nil] at hstart
    rw [partsFrom?, dif_neg h.not_lt, hstart.slice?_end]
    simp [splitCommas]
  | quoted q r hquote ih =>
    have hascii := tests_isQuote.lt hquote
    have hrest := isRest_skipQuoted hquote (h.tail_ascii hascii)
    have hmid : m ++ q :: r = (m ++ q :: (cutQuoted q r).1) ++ (cutQuoted q r).2 := by
      rw [List.append_assoc, List.cons_append, cutQuoted_append]
    rw [partsFrom?_of_getElem? (h.getElem?_of_ascii hascii), tests_isQuote.ascii q hascii, hquote,
      if_pos rfl, ih (hmid ▸ hstart) hrest, splitCommas_quote hquote, splitCommas_cutQuoted]
    simp [Prod.map]
  | char c r hquote ih =>
    by_cases hcomma : c = ',' ∧ depth = 0
    · obtain ⟨rfl, rfl⟩ := hcomma
      have hnext := h.tail_ascii (by decide)
      have hsplit : splitCommas none 0 (',' :: r) =
          ([], (splitCommas none 0 r).1 :: (splitCommas none 0 r).2) := rfl
      rw [partsFrom?_of_getElem? (h.getElem?_of_ascii (by decide)), if_neg (by decide),
        if_neg (by decide), if_neg (by decide), if_pos (by decide), slice?_of_isRest hstart h,
        ih (m := []) hnext hnext, hsplit]
      simp
    · have hmid : m ++ c :: r = (m ++ [c]) ++ r := by simp
      rw [partsFrom?_outside h hquote hcomma, ih (hmid ▸ hstart) h.tail,
        splitCommas_outside hquote hcomma]
      simp [Prod.map]

theorem splitArguments?_eq (s : List Char) : splitArguments? s = some (splitArguments s) := by
  rw [splitArguments?, partsFrom?_eq (m := []) (.zero s) (.zero s)]
  rfl

/-! ## Literals -/

theorem literal?_eq (s : List Char) : literal? s = some (Fusion.literal? s) := by
  rw [literal?, Fusion.literal?]
  cases trim s with
  | nil => rfl
  | cons q r =>
    cases hquote : isQuote q with
    | false => simp [hquote]
    | true =>
      have hsize := utf8Size_of_lt (tests_isQuote.lt hquote)
      rcases List.eq_nil_or_concat' r with rfl | ⟨body, c, rfl⟩
      · simp [byteLength_cons, byteLength_nil, hsize]
      by_cases hc : c = q
      · subst hc
        have hlength : byteLength (c :: (body ++ [c])) = 1 + byteLength body + 1 := by
          rw [byteLength_cons, byteLength_append, byteLength_cons, byteLength_nil, hsize]
          omega
        have hbody : slice? (c :: (body ++ [c])) 1 (1 + byteLength body) = some body := by
          have hrest := (IsRest.zero (c :: (body ++ [c]))).tail
          rw [Nat.zero_add, hsize] at hrest
          exact hrest.slice?
        have hlong : ¬1 + byteLength body + 1 < 2 := by omega
        simp [hquote, hlength, hbody, hlong, List.getLast?_cons]
      · simp [hquote, hc, List.getLast?_cons]

/-! ## Placeholders -/

theorem pairsFrom?_of_getElem? (h : (bytes s)[i]? = some x) (depth start : Nat) :
    pairsFrom? s depth start i =
      if x = '{'.toUInt8 then pairsFrom? s (depth + 1) start (i + 1)
      else if x = '}'.toUInt8 then pairsFrom? s (depth - 1) start (i + 1)
      else if x = ','.toUInt8 ∧ depth = 0 then do
        let part ← slice? s start i
        let parts ← pairsFrom? s depth (i + 1) (i + 1)
        return part :: parts
      else pairsFrom? s depth start (i + 1) := by
  obtain ⟨hi, rfl⟩ := List.getElem?_eq_some_iff.1 h
  rw [pairsFrom?, dif_pos hi]

theorem pairsFrom?_cons (h : IsRest s i (c :: r)) (hcomma : ¬(c = ',' ∧ depth = 0))
    (start : Nat) :
    pairsFrom? s depth start i = pairsFrom? s (braceDepth depth c) start (i + c.utf8Size) := by
  rw [braceDepth]
  by_cases hopen : c = '{'
  · subst hopen
    rw [pairsFrom?_of_getElem? (h.getElem?_of_ascii (by decide)), if_pos rfl, if_pos rfl,
      utf8Size_of_lt (by decide)]
  by_cases hclose : c = '}'
  · subst hclose
    rw [pairsFrom?_of_getElem? (h.getElem?_of_ascii (by decide)), if_neg (by decide), if_pos rfl,
      if_neg (by decide), if_pos rfl, utf8Size_of_lt (by decide)]
  rw [if_neg hopen, if_neg hclose]
  refine h.pass fun k x hx hmem => ?_
  rw [pairsFrom?_of_getElem? hx, if_neg, if_neg, if_neg]
  · rintro ⟨rfl, hdepth⟩
    exact not_mem_utf8EncodeChar (a := ',') (by decide) (fun hc => hcomma ⟨hc, hdepth⟩) hmem
  · rintro rfl
    exact not_mem_utf8EncodeChar (by decide) hclose hmem
  · rintro rfl
    exact not_mem_utf8EncodeChar (by decide) hopen hmem

theorem pairsFrom?_eq (hstart : IsRest s start (m ++ rest)) (h : IsRest s i rest) (depth : Nat) :
    pairsFrom? s depth start i =
      some ((m ++ (splitOutsideBraces depth rest).1) :: (splitOutsideBraces depth rest).2) := by
  induction rest generalizing i depth start m with
  | nil =>
    rw [List.append_nil] at hstart
    rw [pairsFrom?, dif_neg h.not_lt, hstart.slice?_end]
    simp [splitOutsideBraces]
  | cons c r ih =>
    by_cases hcomma : c = ',' ∧ depth = 0
    · obtain ⟨rfl, rfl⟩ := hcomma
      have hnext := h.tail_ascii (by decide)
      have hsplit : splitOutsideBraces 0 (',' :: r) =
          ([], (splitOutsideBraces 0 r).1 :: (splitOutsideBraces 0 r).2) := rfl
      rw [pairsFrom?_of_getElem? (h.getElem?_of_ascii (by decide)), if_neg (by decide),
        if_neg (by decide), if_pos (by decide), slice?_of_isRest hstart h,
        ih (m := []) hnext hnext, hsplit]
      simp
    · have hmid : m ++ c :: r = (m ++ [c]) ++ r := by simp
      rw [pairsFrom?_cons h hcomma, ih (hmid ▸ hstart) h.tail, splitOutsideBraces_cons hcomma]
      simp [Prod.map]

theorem pairsFrom?_zero (s : List Char) :
    pairsFrom? s 0 0 0 = some ((splitOutsideBraces 0 s).1 :: (splitOutsideBraces 0 s).2) :=
  pairsFrom?_eq (m := []) (.zero s) (.zero s) 0

theorem placeholders?_eq (argument : List Char) :
    placeholders? argument = some (placeholders argument) := by
  rw [placeholders?, placeholders]
  cases trim argument with
  | nil => rfl
  | cons c r =>
    by_cases hc : c = '{'
    · subst hc
      simp only [List.head?_cons, if_true, pairsFrom?_zero, Option.map_some]
    · rw [if_neg (by simpa using hc)]
      simp [hc]

/-! ## What a call says -/

theorem argument?_eq {α : Type} {read? : List Char → Option α} {read : List Char → α}
    (h : ∀ argument, read? argument = some (read argument)) (missing : α)
    (argument : Option (List Char)) :
    argument? read? missing argument = some ((argument.map read).getD missing) := by
  cases argument with
  | none => rfl
  | some argument => exact h argument

theorem getD_map_literal? (argument : Option (List Char)) :
    (argument.map Fusion.literal?).getD none = argument.bind Fusion.literal? := by
  cases argument <;> rfl

theorem ofArguments?_eq (isPlural : Bool) (arguments : List Char) :
    ofArguments? isPlural arguments = some (.ofArguments isPlural arguments) := by
  simp only [ofArguments?, splitArguments?_eq, Option.bind_eq_bind, Option.bind_some,
    argument?_eq literal?_eq, argument?_eq placeholders?_eq, getD_map_literal?]
  rfl

theorem applied?_eq (call : RawCall) (method : String) (arguments : List Char) :
    applied? call method arguments = some (call.apply method arguments) := by
  unfold applied? RawCall.apply
  split <;> simp only [literal?_eq, placeholders?_eq, Option.map_some]

end Checked

end TranslationAudit.Fusion
