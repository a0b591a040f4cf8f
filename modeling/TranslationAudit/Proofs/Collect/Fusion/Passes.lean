import TranslationAudit.Proofs.Collect.Fusion.Rounds

/-! # Passes over a Fusion file

* `Fusion.Absent`, `Fusion.scan_absent`, `Fusion.scan_token`: a scan goes from one occurrence of its
  token to the next one.
* `Fusion.Mirrors`: a pass by offsets and a scan of characters that read the same. `Mirrors.steps`
  and `Mirrors.filterMap_rounds` tell where its rounds go and what they find.
-/

namespace TranslationAudit.Fusion

open Text

variable {text rest s r gap token : List Char} {i limit : Nat}

/-! ## Occurrences of a token -/

/-- No occurrence of a token begins in a text that is followed by another one. -/
def Absent (token : List Char) : List Char → List Char → Prop
  | [], _ => True
  | c :: gap, rest => ¬token <+: c :: (gap ++ rest) ∧ Absent token gap rest

theorem find?_eq_none (h : Checked.find? token s = none) :
    Absent token s [] := by
  induction s with
  | nil => trivial
  | cons c s ih =>
    rw [Checked.find?] at h
    split at h
    · cases h
    · next hbegins =>
      rw [List.isPrefixOf_iff_prefix] at hbegins
      rw [Absent, List.append_nil]
      exact ⟨hbegins, ih (Option.map_eq_none_iff.1 h)⟩

theorem exists_of_find? {n : Nat} (htoken : token ≠ []) (h : Checked.find? token s = some n) :
    ∃ gap rest, s = gap ++ (token ++ rest) ∧ byteLength gap = n ∧
      Absent token gap (token ++ rest) := by
  induction s generalizing n with
  | nil => simp [Checked.find?, htoken] at h
  | cons c s ih =>
    rw [Checked.find?] at h
    split at h
    · next hbegins =>
      cases h
      obtain ⟨rest, hrest⟩ := List.isPrefixOf_iff_prefix.1 hbegins
      exact ⟨[], rest, hrest.symm, byteLength_nil, trivial⟩
    · next hbegins =>
      rw [List.isPrefixOf_iff_prefix] at hbegins
      obtain ⟨m, hfound, rfl⟩ := Option.map_eq_some_iff.1 h
      obtain ⟨gap, rest, rfl, hlength, habsent⟩ := ih hfound
      exact ⟨c :: gap, rest, rfl, by rw [byteLength_cons, hlength], hbegins, habsent⟩

theorem after?_eq_none (h : ¬token <+: s) : after? token s = none := by
  cases hafter : after? token s with
  | none => rfl
  | some rest => exact absurd ⟨rest, (eq_append_of_after? hafter).symm⟩ h

section Scan

variable {skips : Nat → Bool} {read : List Char → Option (RawCall × List Char)} {position : Nat}

/-- A scan goes on where its token may begin. -/
theorem scan_absent (h : Absent token gap rest) :
    scan text token skips read position (gap ++ rest) =
      scan text token skips read (position + gap.length) rest := by
  induction gap generalizing position with
  | nil => rfl
  | cons c gap ih =>
    rw [List.cons_append, scan, after?_eq_none h.1]
    dsimp only
    rw [ih h.2, List.length_cons]
    congr 1
    omega

/-- The first character of a token is in no other place of it, so that no token begins within
another one. -/
structure Lone (token : List Char) : Prop where
  exists_cons : ∃ c r, token = c :: r ∧ c ∉ r

theorem Lone.ne_nil (h : Lone token) : token ≠ [] := by
  obtain ⟨c, r, rfl, -⟩ := h
  exact List.cons_ne_nil c r

theorem absent_of_not_mem {c : Char} {token : List Char} (h : c ∉ gap) (rest : List Char) :
    Absent (c :: token) gap rest := by
  induction gap with
  | nil => trivial
  | cons d gap ih =>
    rw [List.mem_cons, not_or] at h
    refine ⟨fun hbegins => h.1 ?_, ih h.2⟩
    exact (List.cons_prefix_cons.1 hbegins).1

/-- What is read behind a token at a place, if anything is, and what is left. -/
def look (text : List Char) (skips : Nat → Bool)
    (read : List Char → Option (RawCall × List Char)) (place : Nat) (rest : List Char) :
    Option RawCall × List Char :=
  if skips place || !atWordStart text place then (none, rest)
  else match read rest with
  | none => (none, rest)
  | some (call, left) => (some call, left)

theorem suffix_of_look (hread : ∀ s call rest, read s = some (call, rest) → rest <:+ s)
    (place : Nat) (rest : List Char) : (look text skips read place rest).2 <:+ rest := by
  rw [look]
  split
  · exact List.suffix_refl _
  split
  · exact List.suffix_refl _
  · next call left hcall => exact hread _ _ _ hcall

/-- A scan at an occurrence of its token. -/
theorem scan_token (h : Lone token)
    (hread : ∀ s call rest, read s = some (call, rest) → rest <:+ s) :
    scan text token skips read position (token ++ rest) =
      ((look text skips read position rest).1.map (position, ·)).toList ++
        scan text token skips read
          (position + ((token ++ rest).length - (look text skips read position rest).2.length))
          (look text skips read position rest).2 := by
  obtain ⟨c, r, rfl, hlone⟩ := h
  have hnext : scan text (c :: r) skips read (position + 1) (r ++ rest) =
      scan text (c :: r) skips read (position + ((c :: r ++ rest).length - rest.length)) rest := by
    rw [scan_absent (absent_of_not_mem hlone rest), List.length_append, List.length_cons]
    congr 1
    omega
  rw [List.cons_append, scan, ← List.cons_append, after?_append, look]
  dsimp only
  rw [hnext]
  split
  · rfl
  cases hcall : read rest with
  | none => rfl
  | some found =>
    obtain ⟨call, left⟩ := found
    have hle := (hread _ _ _ hcall).length_le
    have hlt : left.length < (c :: r ++ rest).length := by
      rw [List.length_append, List.length_cons]
      omega
    exact if_pos hlt

end Scan

/-! ## Words and lines -/

theorem tests_isWord :
    Tests (fun b => Checked.isAlphaByte b || Checked.isDigitByte b || b == '_'.toUInt8)
      fun c => c.isAlphanum || c == '_' :=
  .of_codes (by decide) (by decide) fun c hc => by
    have hbounds : '9'.val.toNat = 57 := rfl
    have hdigit : c.isDigit = false := by
      simp only [Char.isDigit, UInt32.le_iff_toNat_le, Char.toNat, Bool.and_eq_false_iff,
        decide_eq_false_iff_not, ge_iff_le] at hc ⊢
      omega
    simp [Char.isAlphanum, isAlpha_eq_false hc, hdigit, ne_of_le hc (a := '_') (by decide)]

theorem atWordStart_eq (front rest : List Char) :
    Checked.atWordStart (bytes (front ++ rest)) (byteLength front) =
      atWordStart (front ++ rest) front.length := by
  rcases List.eq_nil_or_concat' front with rfl | ⟨before, c, rfl⟩
  · rfl
  have hpos := c.utf8Size_pos
  have hlast : c.utf8Size - 1 < (String.utf8EncodeChar c).length := by
    rw [String.length_utf8EncodeChar]
    omega
  have hoffset : byteLength (before ++ [c]) = byteLength before + (c.utf8Size - 1) + 1 := by
    rw [byteLength_append, byteLength_cons, byteLength_nil]
    omega
  have hrest : IsRest (before ++ [c] ++ rest) (byteLength before) (c :: rest) :=
    ⟨before, by simp, rfl⟩
  have hbyte : (bytes (before ++ [c] ++ rest))[byteLength before + (c.utf8Size - 1)]? =
      some (String.utf8EncodeChar c)[c.utf8Size - 1] := by
    rw [hrest.getElem?_bytes, bytes_cons, List.getElem?_append_left hlast,
      List.getElem?_eq_getElem hlast]
  have hword := tests_isWord.eq_of_mem (c := c) (List.getElem_mem hlast)
  have hplace : atWordStart (before ++ [c] ++ rest) (before ++ [c]).length =
      !(c.isAlphanum || c == '_') := by
    simp [atWordStart]
  rw [hoffset, Checked.atWordStart, hbyte, Option.any_some, hword, hplace]

theorem count_bytes (s : List Char) : (bytes s).count '\n'.toUInt8 = s.count '\n' := by
  induction s with
  | nil => rfl
  | cons c s ih =>
    rw [bytes_cons, List.count_append, ih, List.count_cons, Nat.add_comm]
    by_cases hc : c = '\n'
    · subst hc
      rfl
    · rw [List.count_eq_zero_of_not_mem (not_mem_utf8EncodeChar (by decide) hc)]
      simp [hc]

/-- The offset of a place that is counted in characters. -/
def offsetOf (text : List Char) (place : Nat) : Nat := byteLength (text.take place)

theorem offsetOf_length (front rest : List Char) :
    offsetOf (front ++ rest) front.length = byteLength front := by
  rw [offsetOf, List.take_left]

theorem offsetOf_lt {place later : Nat} (h : place < later) (hplace : place < text.length) :
    offsetOf text place < offsetOf text later := by
  have htake : text.take later = text.take place ++ (text.drop place).take (later - place) := by
    rw [← List.take_add, Nat.add_sub_cancel' (Nat.le_of_lt h)]
  obtain ⟨c, r, hdrop⟩ : ∃ c r, text.drop place = c :: r :=
    List.exists_cons_of_ne_nil (by simpa using hplace)
  obtain ⟨n, hn⟩ := Nat.exists_eq_add_of_lt h
  have hpos := c.utf8Size_pos
  have hstep : later - place = n + 1 := by omega
  rw [offsetOf, offsetOf, htake, byteLength_append, hdrop, hstep, List.take_succ_cons,
    byteLength_cons]
  omega

theorem offsetOf_inj {place other : Nat} (hplace : place < text.length)
    (h : offsetOf text other = offsetOf text place) : other = place := by
  rcases Nat.lt_trichotomy other place with hlt | heq | hlt
  · have := offsetOf_lt hlt (Nat.lt_trans hlt hplace)
    omega
  · exact heq
  · have := offsetOf_lt hlt hplace
    omega

theorem lineAt_eq (text : List Char) (place : Nat) :
    Checked.lineAt (bytes text) (offsetOf text place) = lineAt text place := by
  have htake : (bytes text).take (offsetOf text place) = bytes (text.take place) := by
    have hbytes := bytes_append (text.take place) (text.drop place)
    rw [List.take_append_drop] at hbytes
    rw [hbytes]
    exact List.take_left
  rw [Checked.lineAt, htake, count_bytes, lineAt]

/-! ## Passes -/

section Pass

variable {skips : Nat → Bool} {read? : Nat → Option (Option (RawCall × Nat))}
variable {skipsPlace : Nat → Bool} {read : List Char → Option (RawCall × List Char)}
variable {rounds : List (Option (Nat × RawCall) × Nat)}

/-- A pass by offsets and a scan of characters that leave out the same places of a token, and that
read the same behind the others. -/
structure Mirrors (text token : List Char) (skips : Nat → Bool)
    (read? : Nat → Option (Option (RawCall × Nat))) (skipsPlace : Nat → Bool)
    (read : List Char → Option (RawCall × List Char)) : Prop where
  lone : Lone token
  skips_eq : ∀ place < text.length, skips (offsetOf text place) = skipsPlace place
  read?_eq : ∀ i rest, IsRest text i rest → read? i =
    some ((read rest).map fun found => (found.1, byteLength text - byteLength found.2))
  suffix : ∀ s call rest, read s = some (call, rest) → rest <:+ s

theorem passRound?_none (h : IsRest text i s) (hfind : Checked.find? token s = none) :
    Checked.passRound? text token skips read? i = some none := by
  simp only [Checked.passRound?, h.slice?_end, hfind, Option.bind_eq_bind, Option.bind_some]
  rfl

/-- A round at the next occurrence of the token, which is at the character `front.length`. -/
theorem passRound?_some (h : Mirrors text token skips read? skipsPlace read) {front : List Char}
    (htext : text = front ++ (gap ++ (token ++ rest)))
    (hfind : Checked.find? token (gap ++ (token ++ rest)) = some (byteLength gap)) :
    Checked.passRound? text token skips read? (byteLength front) =
      some (some
        ((look text skipsPlace read (front ++ gap).length rest).1.map
            (byteLength (front ++ gap), ·),
          byteLength text -
            byteLength (look text skipsPlace read (front ++ gap).length rest).2)) := by
  have hstart : IsRest text (byteLength front) (gap ++ (token ++ rest)) := ⟨front, htext, rfl⟩
  have hplace : text = front ++ gap ++ (token ++ rest) := by rw [htext, List.append_assoc]
  have hoffset : byteLength front + byteLength gap = byteLength (front ++ gap) :=
    (byteLength_append front gap).symm
  have hend : IsRest text (byteLength (front ++ gap ++ token)) rest :=
    ⟨front ++ gap ++ token, by rw [hplace, List.append_assoc _ token], rfl⟩
  have hskips : skips (byteLength (front ++ gap)) = skipsPlace (front ++ gap).length := by
    rw [← h.skips_eq, hplace, offsetOf_length]
    have hpositive := List.length_pos_iff.2 h.lone.ne_nil
    simp only [hplace, List.length_append]
    omega
  have hword : Checked.atWordStart (bytes text) (byteLength (front ++ gap)) =
      atWordStart text (front ++ gap).length := by
    rw [hplace, atWordStart_eq]
  simp only [Checked.passRound?, hstart.slice?_end, hfind, Option.bind_eq_bind, Option.bind_some,
    hoffset, ← byteLength_append, hskips, hword, h.read?_eq _ _ hend, look]
  split
  · rw [← hend.eq_sub]
    rfl
  · cases read rest with
    | none =>
      dsimp only [Option.map_none]
      rw [← hend.eq_sub]
      rfl
    | some found => rfl

theorem Mirrors.steps (h : Mirrors text token skips read? skipsPlace read) :
    Steps text (Checked.passRound? text token skips read?) := by
  intro i s hrest
  cases hfind : Checked.find? token s with
  | none => exact ⟨none, passRound?_none hrest hfind, nofun⟩
  | some n =>
    obtain ⟨gap, rest, rfl, rfl, -⟩ := exists_of_find? h.lone.ne_nil hfind
    obtain ⟨front, htext, rfl⟩ := hrest
    refine ⟨_, passRound?_some h htext hfind, fun found next heq => ?_⟩
    rw [Option.some.injEq, Prod.mk.injEq] at heq
    obtain ⟨-, rfl⟩ := heq
    have hsuffix : (look text skipsPlace read (front ++ gap).length rest).2 <:+ rest :=
      suffix_of_look h.suffix _ _
    generalize (look text skipsPlace read (front ++ gap).length rest).2 = left at hsuffix ⊢
    have htoken := byteLength_pos h.lone.ne_nil
    have hle := byteLength_le_of_suffix hsuffix
    have hlength := congrArg byteLength htext
    simp only [byteLength_append] at hlength
    have hleft : left <:+ text := by
      rw [htext, ← List.append_assoc, ← List.append_assoc]
      exact hsuffix.trans (List.suffix_append _ _)
    exact ⟨by omega, left, .of_suffix hleft⟩

/-- What the rounds of a pass find is what the scan finds, at the same places. -/
theorem Mirrors.filterMap_rounds (h : Mirrors text token skips read? skipsPlace read)
    {front : List Char} (htext : text = front ++ s)
    (hrounds : Checked.rounds? (Checked.passRound? text token skips read?) limit
      (byteLength front) = some rounds) :
    rounds.filterMap Prod.fst =
      (scan text token skipsPlace read front.length s).map fun entry =>
        (offsetOf text entry.1, entry.2) := by
  induction limit generalizing front s rounds with
  | zero => cases hrounds
  | succ limit ih =>
    have hrest : IsRest text (byteLength front) s := ⟨front, htext, rfl⟩
    cases hfind : Checked.find? token s with
    | none =>
      have hscan : scan text token skipsPlace read front.length (s ++ []) =
          scan text token skipsPlace read (front.length + s.length) [] :=
        scan_absent (find?_eq_none hfind)
      rw [List.append_nil] at hscan
      rw [Checked.rounds?, passRound?_none hrest hfind] at hrounds
      cases hrounds
      rw [hscan, scan]
      rfl
    | some n =>
      obtain ⟨gap, rest, rfl, rfl, habsent⟩ := exists_of_find? h.lone.ne_nil hfind
      have hoffset : offsetOf text (front ++ gap).length = byteLength (front ++ gap) := by
        rw [htext, ← List.append_assoc, offsetOf_length]
      rw [Checked.rounds?, passRound?_some h htext hfind] at hrounds
      obtain ⟨later, hlater, rfl⟩ := Option.map_eq_some_iff.1 hrounds
      rw [scan_absent habsent, scan_token h.lone h.suffix, ← List.length_append]
      obtain ⟨taken, htaken⟩ : (look text skipsPlace read (front ++ gap).length rest).2 <:+ rest :=
        suffix_of_look h.suffix _ _
      generalize look text skipsPlace read (front ++ gap).length rest = outcome at *
      have hback : text = front ++ gap ++ token ++ taken ++ outcome.2 := by simp [htext, ← htaken]
      have hnext : byteLength text - byteLength outcome.2 =
          byteLength (front ++ gap ++ token ++ taken) := by
        rw [hback, byteLength_append _ outcome.2, Nat.add_sub_cancel]
      have hposition : (front ++ gap).length + ((token ++ rest).length - outcome.2.length) =
          (front ++ gap ++ token ++ taken).length := by
        simp only [← htaken, List.length_append]
        omega
      rw [hnext] at hlater
      rw [hposition, List.map_append, ← ih hback hlater]
      cases outcome.1 with
      | none => rfl
      | some call =>
        rw [← hoffset]
        rfl

end Pass

end TranslationAudit.Fusion
