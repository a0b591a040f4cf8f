import TranslationAudit.Text.Blank

/-! # Cutting texts

Where the functions that cut a text cut one that was put together from parts.

* `cutAt?_append`: the first occurrence of a character that the first part does not hold.
* `cutAtLast?_append`, `eq_append_of_cutAtLast?`: the last occurrence, which the second part does
  not hold.
* `before?_eq_some_iff`: an ending is recognised by what it leaves.
* `after?_append`, `after?_append_of_le`: a beginning is recognised by what it covers.
* `split_append`, `split_append_cons`, `split_intercalate`: the pieces of a text.
-/

namespace TranslationAudit.Text

/-! ## At a character -/

theorem cutAt?_append {c : Char} {s : List Char} (h : c ∉ s) (r : List Char) :
    cutAt? c (s ++ c :: r) = some (s, r) := by
  induction s with
  | nil => simp [cutAt?]
  | cons d s ih =>
    have hd : d ≠ c := fun e => h (e ▸ List.mem_cons_self)
    have hs : c ∉ s := fun m => h (List.mem_cons_of_mem d m)
    simp [cutAt?, hd, ih hs]

theorem eq_append_of_cutAt? {c : Char} {s a r : List Char} (h : cutAt? c s = some (a, r)) :
    s = a ++ c :: r ∧ c ∉ a := by
  induction s generalizing a with
  | nil => cases h
  | cons d s ih =>
    rw [cutAt?] at h
    split at h
    · next hd =>
      cases h
      exact ⟨by simp [hd], List.not_mem_nil⟩
    · next hd =>
      obtain ⟨⟨b, r'⟩, hb, heq⟩ := Option.map_eq_some_iff.1 h
      cases heq
      obtain ⟨rfl, hc⟩ := ih hb
      refine ⟨rfl, ?_⟩
      rw [List.mem_cons, not_or]
      exact ⟨fun heq => hd heq.symm, hc⟩

theorem cutAt?_eq_none {c : Char} {s : List Char} (h : c ∉ s) : cutAt? c s = none := by
  cases hcut : cutAt? c s with
  | none => rfl
  | some parts =>
    obtain ⟨hs, -⟩ := eq_append_of_cutAt? hcut
    exact absurd (hs ▸ List.mem_append_right _ List.mem_cons_self) h

theorem cutAtLast?_eq_none_iff {c : Char} {s : List Char} : cutAtLast? c s = none ↔ c ∉ s := by
  induction s with
  | nil => simp [cutAtLast?]
  | cons d s ih =>
    rw [cutAtLast?, List.mem_cons, not_or, ← ih]
    cases cutAtLast? c s with
    | some parts => simp
    | none => simp [eq_comm]

theorem cutAtLast?_append {c : Char} (s : List Char) {r : List Char} (h : c ∉ r) :
    cutAtLast? c (s ++ c :: r) = some (s, r) := by
  induction s with
  | nil => simp [cutAtLast?, cutAtLast?_eq_none_iff.2 h]
  | cons d s ih => simp [cutAtLast?, ih]

theorem eq_append_of_cutAtLast? {c : Char} {s a r : List Char} (h : cutAtLast? c s = some (a, r)) :
    s = a ++ c :: r ∧ c ∉ r := by
  induction s generalizing a with
  | nil => cases h
  | cons d s ih =>
    rw [cutAtLast?] at h
    cases hrest : cutAtLast? c s with
    | some parts =>
      rw [hrest] at h
      cases h
      obtain ⟨hs, hc⟩ := ih hrest
      exact ⟨congrArg (d :: ·) hs, hc⟩
    | none =>
      rw [hrest] at h
      dsimp only at h
      split at h
      · next hd =>
        cases h
        exact ⟨by rw [hd]; rfl, cutAtLast?_eq_none_iff.1 hrest⟩
      · cases h

/-! ## At the ends -/

theorem after?_append (p s : List Char) : after? p (p ++ s) = some s := by
  induction p with
  | nil => rfl
  | cons c p ih => simp [after?, ih]

theorem eq_append_of_after? {p s r : List Char} (h : after? p s = some r) : s = p ++ r := by
  induction p generalizing s with
  | nil => simpa [after?] using h
  | cons c p ih =>
    cases s with
    | nil => simp [after?] at h
    | cons d s =>
      by_cases hc : c = d
      · simp only [after?, hc, if_true] at h
        rw [hc, ih h, List.cons_append]
      · simp [after?, hc] at h

/-- What follows a text that is long enough does not matter for its beginning. -/
theorem after?_append_of_le {p s : List Char} (h : p.length ≤ s.length) (r : List Char) :
    after? p (s ++ r) = (after? p s).map (· ++ r) := by
  induction p generalizing s with
  | nil => rfl
  | cons c p ih =>
    cases s with
    | nil => simp at h
    | cons d s =>
      have hs : p.length ≤ s.length := by simpa using h
      by_cases hc : c = d
      · simp [after?, hc, ih hs]
      · simp [after?, hc]

/-- A text does not begin as one that differs from it early on. -/
theorem after?_append_of_differ {p q : List Char} (h : (p.zip q).any (fun e => e.1 ≠ e.2) = true)
    (r : List Char) : after? p (q ++ r) = none := by
  induction p generalizing q with
  | nil => simp at h
  | cons c p ih =>
    cases q with
    | nil => simp at h
    | cons d q =>
      rw [List.cons_append, after?]
      split
      · next hcd => exact ih (by simpa [hcd] using h)
      · rfl

theorem before?_eq_some_iff {ending s r : List Char} :
    before? ending s = some r ↔ s = r ++ ending := by
  rw [before?]
  constructor
  · intro h
    obtain ⟨front, hafter, rfl⟩ := Option.map_eq_some_iff.1 h
    have hs := congrArg List.reverse (eq_append_of_after? hafter)
    rwa [List.reverse_reverse, List.reverse_append, List.reverse_reverse] at hs
  · rintro rfl
    rw [List.reverse_append, after?_append, Option.map_some, List.reverse_reverse]

theorem before?_concat (s : List Char) (c : Char) : before? [c] (s ++ [c]) = some s :=
  before?_eq_some_iff.2 rfl

theorem before?_concat_ne {c d : Char} (h : d ≠ c) (s : List Char) :
    before? [c] (s ++ [d]) = none := by
  simp [before?, after?, Ne.symm h]

/-! ## Runs -/

theorem takeWhile_append_cons {p : Char → Bool} {s : List Char} (hs : ∀ c ∈ s, p c = true)
    {d : Char} (hd : p d = false) (r : List Char) : (s ++ d :: r).takeWhile p = s := by
  rw [List.takeWhile_append_of_pos hs]
  simp [hd]

theorem dropWhile_append_cons {p : Char → Bool} {s : List Char} (hs : ∀ c ∈ s, p c = true)
    {d : Char} (hd : p d = false) (r : List Char) : (s ++ d :: r).dropWhile p = d :: r := by
  rw [List.dropWhile_append_of_pos hs]
  simp [hd]

/-! ## Pieces -/

theorem split_ne_nil (p : Char → Bool) (s : List Char) : split p s ≠ [] := by
  cases s with
  | nil => simp [split]
  | cons c r =>
    rw [split]
    split
    · simp
    · split <;> simp

theorem split_append {p : Char → Bool} {s : List Char} (hs : ∀ c ∈ s, p c = false)
    {r : List Char} {piece : List Char} {rest : List (List Char)}
    (h : split p r = piece :: rest) : split p (s ++ r) = (s ++ piece) :: rest := by
  induction s with
  | nil => exact h
  | cons c s ih =>
    have hc : p c = false := hs c List.mem_cons_self
    have ht := ih fun d hd => hs d (List.mem_cons_of_mem c hd)
    simp [split, hc, ht]

theorem split_append_cons {p : Char → Bool} {c : Char} (hc : p c = true) (s r : List Char) :
    split p (s ++ c :: r) = split p s ++ split p r := by
  induction s with
  | nil => simp [split, hc]
  | cons d s ih =>
    obtain ⟨piece, rest, h⟩ := List.exists_cons_of_ne_nil (split_ne_nil p s)
    rw [List.cons_append, split, split, ih, h]
    cases p d <;> rfl

theorem split_intercalate {p : Char → Bool} {c : Char} (hc : p c = true) {pieces : List (List Char)}
    (hne : pieces ≠ []) (hpieces : ∀ s ∈ pieces, ∀ d ∈ s, p d = false) :
    split p ([c].intercalate pieces) = pieces := by
  have hsingle {s : List Char} (hs : ∀ d ∈ s, p d = false) : split p s = [s] := by
    have hnil : split p [] = [[]] := rfl
    simpa using split_append hs hnil
  induction pieces with
  | nil => exact absurd rfl hne
  | cons s pieces ih =>
    have hs := hpieces s List.mem_cons_self
    cases pieces with
    | nil => simpa using hsingle hs
    | cons t pieces =>
      have hrest := ih (List.cons_ne_nil _ _) fun u hu => hpieces u (List.mem_cons_of_mem s hu)
      rw [List.intercalate_cons_cons, List.append_assoc, List.singleton_append,
        split_append_cons hc, hrest, hsingle hs]
      rfl

theorem mem_map_ofList {pieces : List (List Char)} {s : String} :
    s ∈ pieces.map String.ofList ↔ s.toList ∈ pieces := by
  rw [List.mem_map]
  constructor
  · rintro ⟨piece, hpiece, rfl⟩
    rwa [String.toList_ofList]
  · exact fun h => ⟨_, h, String.ofList_toList⟩

end TranslationAudit.Text
