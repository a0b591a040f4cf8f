import TranslationAudit.Markup.Entity
import TranslationAudit.Proofs.Text.Cut

/-! # Entities read back

Offsets matter for errors only, so entities are read here without them.

* `entity?`, `pieces?`, `unescape?`: what reading gives where it succeeds.
* `unescape?_cons`, `unescape?_entity`: how reading a text goes on, character by character.
* `unescape?_escaped_append`: an escaped text reads back in front of any other text, and
  `unescape_escaped` is the case of nothing behind it.
-/

namespace TranslationAudit

theorem eq_ok_of_toOption {ε α : Type} {r : Except ε α} {a : α} (h : r.toOption = some a) :
    r = .ok a := by
  cases r with
  | error e => cases h
  | ok b =>
    cases h
    rfl

namespace Markup

/-! ## Reading without offsets -/

/-- The character that a name between `&` and `;` stands for. -/
def entity? (name : List Char) : Option Char := (readEntity 0 name).toOption

/-- What the pieces after ampersands read as. -/
def pieces? : List (List Char) → Option (List Char)
  | [] => some []
  | piece :: rest =>
    (Text.cutAt? ';' piece).bind fun (name, plain) =>
      (entity? name).bind fun c => (pieces? rest).map (c :: plain ++ ·)

/-- What a text with entities reads as. -/
def unescape? (s : List Char) : Option (List Char) := (unescape s).toOption

theorem toOption_readEntity (start : Nat) (name : List Char) :
    (readEntity start name).toOption = entity? name := by
  unfold entity? readEntity
  split
  · split <;> rfl
  · split <;> rfl

theorem toOption_readPieces (total start : Nat) (ps : List (List Char)) :
    (readPieces total start ps).toOption = pieces? ps := by
  induction ps generalizing start with
  | nil => rfl
  | cons piece rest ih =>
    rw [readPieces, pieces?]
    cases Text.cutAt? ';' piece with
    | none => rfl
    | some p =>
      obtain ⟨name, plain⟩ := p
      simp only [Option.bind_some]
      rw [← toOption_readEntity start name, ← ih (start + byteCount piece + 1)]
      cases readEntity start name with
      | error e => rfl
      | ok c => cases readPieces total (start + byteCount piece + 1) rest <;> rfl

theorem unescape?_eq (s : List Char) :
    unescape? s =
      match Text.split (· = '&') s with
      | [] => some []
      | plain :: rest => (pieces? rest).map (plain ++ ·) := by
  unfold unescape? unescape
  cases Text.split (· = '&') s with
  | nil => rfl
  | cons plain rest =>
    simp only
    rw [← toOption_readPieces (byteCount s) (byteCount plain + 1) rest]
    cases readPieces (byteCount s) (byteCount plain + 1) rest <;> rfl

/-! ## Character by character -/

@[simp] theorem unescape?_nil : unescape? [] = some [] := rfl

theorem unescape?_cons {c : Char} (hc : c ≠ '&') (s : List Char) :
    unescape? (c :: s) = (unescape? s).map (c :: ·) := by
  obtain ⟨piece, rest, h⟩ := List.exists_cons_of_ne_nil (Text.split_ne_nil (· = '&') s)
  have hcs : Text.split (· = '&') (c :: s) = (c :: piece) :: rest := by
    simpa using Text.split_append (p := (· = '&')) (s := [c]) (by simpa using hc) h
  rw [unescape?_eq, unescape?_eq, h, hcs]
  simp [Function.comp_def]

theorem unescape?_entity {name : List Char} (hamp : '&' ∉ name) (hsemi : ';' ∉ name)
    (s : List Char) :
    unescape? ('&' :: name ++ ';' :: s) =
      (entity? name).bind fun c => (unescape? s).map (c :: ·) := by
  obtain ⟨piece, rest, h⟩ := List.exists_cons_of_ne_nil (Text.split_ne_nil (· = '&') s)
  have hname : ∀ c ∈ name ++ [';'], decide (c = '&') = false := by
    intro c hc
    have hne : c ≠ '&' := by
      rintro rfl
      rcases List.mem_append.1 hc with hc | hc
      · exact hamp hc
      · simp at hc
    simpa using hne
  have hsplit : Text.split (· = '&') ('&' :: name ++ ';' :: s) =
      [] :: (name ++ ';' :: piece) :: rest := by
    have ht := Text.split_append (p := (· = '&')) hname h
    simp only [List.append_assoc, List.singleton_append] at ht
    simp [Text.split, ht]
  rw [unescape?_eq, unescape?_eq, h, hsplit]
  simp only [pieces?, Text.cutAt?_append hsemi, Option.bind_some]
  cases entity? name with
  | none => rfl
  | some c => simp [Function.comp_def]

/-! ## Escaped texts -/

/-- A text as it is written, on lists of characters. -/
def escaped (s : List Char) : List Char := s.flatMap escapeChar

@[simp] theorem escaped_nil : escaped [] = [] := rfl

theorem toList_escape (s : String) : (escape s).toList = escaped s.toList := by
  simp [escape, escaped]

/-- The characters that are written as entities. -/
def isSpecial (c : Char) : Bool := c = '&' || c = '<' || c = '>' || c = '"'

theorem escapeChar_of_not_special {c : Char} (h : isSpecial c = false) : escapeChar c = [c] := by
  simp only [isSpecial, Bool.or_eq_false_iff, decide_eq_false_iff_not] at h
  simp [escapeChar, h.1.1.1, h.1.1.2, h.1.2, h.2]

theorem escaped_of_not_special {s : List Char} (h : ∀ c ∈ s, isSpecial c = false) :
    escaped s = s := by
  induction s with
  | nil => rfl
  | cons c s ih =>
    have hc := escapeChar_of_not_special (h c List.mem_cons_self)
    have hs := ih fun d hd => h d (List.mem_cons_of_mem c hd)
    rw [escaped, List.flatMap_cons, hc, ← escaped, hs, List.singleton_append]

theorem escapeChar_of_special {c : Char} (h : isSpecial c = true) :
    ∃ name : List Char, escapeChar c = '&' :: name ++ [';'] ∧ entity? name = some c ∧
      ∀ d ∈ name, d ≠ ';' ∧ isSpecial d = false := by
  simp only [isSpecial, Bool.or_eq_true, decide_eq_true_eq] at h
  rcases h with ((rfl | rfl) | rfl) | rfl
  · exact ⟨['a', 'm', 'p'], by decide, by decide, by simp [isSpecial]⟩
  · exact ⟨['l', 't'], by decide, by decide, by simp [isSpecial]⟩
  · exact ⟨['g', 't'], by decide, by decide, by simp [isSpecial]⟩
  · exact ⟨['q', 'u', 'o', 't'], by decide, by decide, by simp [isSpecial]⟩

/-- Of the special characters only the ampersand is left in an escaped text. -/
theorem eq_amp_of_mem_escaped {s : List Char} {d : Char} (hd : d ∈ escaped s)
    (special : isSpecial d = true) : d = '&' := by
  obtain ⟨c, -, hdc⟩ := List.mem_flatMap.1 hd
  cases hc : isSpecial c with
  | false =>
    rw [escapeChar_of_not_special hc, List.mem_singleton] at hdc
    rw [hdc, hc] at special
    exact absurd special (by simp)
  | true =>
    obtain ⟨name, he, -, hname⟩ := escapeChar_of_special hc
    rw [he] at hdc
    simp only [List.cons_append, List.mem_cons, List.mem_append, List.not_mem_nil, or_false] at hdc
    rcases hdc with rfl | hdc | rfl
    · rfl
    · rw [(hname d hdc).2] at special
      exact absurd special (by simp)
    · exact absurd special (by decide)

theorem not_mem_escaped {s : List Char} {d : Char} (special : isSpecial d = true)
    (hne : d ≠ '&') : d ∉ escaped s :=
  fun hd => hne (eq_amp_of_mem_escaped hd special)

theorem unescape?_escapeChar_append (c : Char) (t : List Char) :
    unescape? (escapeChar c ++ t) = (unescape? t).map (c :: ·) := by
  cases hc : isSpecial c with
  | false =>
    have hne : c ≠ '&' := by
      rintro rfl
      exact absurd hc (by decide)
    rw [escapeChar_of_not_special hc, List.singleton_append, unescape?_cons hne]
  | true =>
    obtain ⟨name, he, hread, hname⟩ := escapeChar_of_special hc
    have hamp : '&' ∉ name := fun h => absurd (hname _ h).2 (by decide)
    have hsemi : ';' ∉ name := fun h => (hname _ h).1 rfl
    rw [he, List.append_assoc, List.singleton_append, unescape?_entity hamp hsemi, hread]
    rfl

/-- An escaped text reads back in front of any other text. -/
theorem unescape?_escaped_append (s t : List Char) :
    unescape? (escaped s ++ t) = (unescape? t).map (s ++ ·) := by
  induction s with
  | nil => simp
  | cons c s ih =>
    rw [escaped, List.flatMap_cons, List.append_assoc, unescape?_escapeChar_append, ← escaped, ih]
    cases unescape? t <;> simp

theorem unescape_escaped (s : List Char) : unescape (escaped s) = .ok s := by
  have h := unescape?_escaped_append s []
  simp only [List.append_nil, unescape?_nil, Option.map_some] at h
  exact eq_ok_of_toOption h

end Markup

end TranslationAudit
