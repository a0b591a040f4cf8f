import Mathlib.Data.List.Infix
import TranslationAudit.Proofs.Text.Ascii
import TranslationAudit.Text.Slice

/-! # Offsets and slices

* `splitAtByte?_eq_some_iff`, `slice?_eq_some_iff`: slices exist between offsets at which characters
  begin or the text ends.
* `not_mem_utf8EncodeChar`, `le_of_mem_tail`: the byte of an ASCII character is in no other one, and
  what follows the first byte of a character is no ASCII.
* `IsRest`: what is left of a text at an offset. `IsRest.pass` passes over a character byte by byte.
-/

namespace TranslationAudit.Text

variable {s t u v text rest : List Char} {a c : Char} {b : UInt8} {i : Nat}

/-! ## Lengths -/

theorem bytes_append (s t : List Char) : bytes (s ++ t) = bytes s ++ bytes t :=
  List.flatMap_append

theorem bytes_cons (c : Char) (s : List Char) :
    bytes (c :: s) = String.utf8EncodeChar c ++ bytes s := List.flatMap_cons

theorem byteLength_nil : byteLength [] = 0 := rfl

theorem byteLength_append (s t : List Char) :
    byteLength (s ++ t) = byteLength s + byteLength t := by
  rw [byteLength, bytes_append, List.length_append]
  rfl

theorem byteLength_cons (c : Char) (s : List Char) :
    byteLength (c :: s) = c.utf8Size + byteLength s := by
  rw [byteLength, bytes_cons, List.length_append, String.length_utf8EncodeChar]
  rfl

theorem length_bytes (s : List Char) : (bytes s).length = byteLength s := rfl

theorem byteLength_pos (h : s ≠ []) : 0 < byteLength s := by
  obtain ⟨c, r, rfl⟩ := List.exists_cons_of_ne_nil h
  have hpos := c.utf8Size_pos
  rw [byteLength_cons]
  omega

theorem byteLength_le_of_suffix (h : t <:+ s) : byteLength t ≤ byteLength s := by
  obtain ⟨front, rfl⟩ := h
  rw [byteLength_append]
  omega

/-! ## Slices -/

theorem splitAtByte?_append (u v : List Char) :
    splitAtByte? (byteLength u) (u ++ v) = some (u, v) := by
  induction u with
  | nil => cases v <;> rfl
  | cons c u ih =>
    have hpos := c.utf8Size_pos
    obtain ⟨n, hn⟩ : ∃ n, byteLength (c :: u) = n + 1 :=
      ⟨byteLength (c :: u) - 1, by rw [byteLength_cons]; omega⟩
    have hle : c.utf8Size ≤ n + 1 := by rw [← hn, byteLength_cons]; omega
    have hrest : n + 1 - c.utf8Size = byteLength u := by rw [← hn, byteLength_cons]; omega
    rw [hn, List.cons_append, splitAtByte?, if_pos hle, hrest, ih]
    rfl

theorem splitAtByte?_eq_some_iff :
    splitAtByte? i s = some (u, v) ↔ s = u ++ v ∧ byteLength u = i := by
  constructor
  · intro h
    induction i, s using splitAtByte?.induct generalizing u with
    | case1 s =>
      rw [splitAtByte?, Option.some.injEq, Prod.mk.injEq] at h
      obtain ⟨rfl, rfl⟩ := h
      exact ⟨rfl, rfl⟩
    | case2 n => cases h
    | case3 n c s hle ih =>
      rw [splitAtByte?, if_pos hle] at h
      obtain ⟨⟨u', v'⟩, hsplit, heq⟩ := Option.map_eq_some_iff.1 h
      cases heq
      obtain ⟨rfl, hlength⟩ := ih hsplit
      refine ⟨rfl, ?_⟩
      rw [byteLength_cons]
      omega
    | case4 n c s hle => rw [splitAtByte?, if_neg hle] at h; cases h
  · rintro ⟨rfl, rfl⟩
    exact splitAtByte?_append u v

theorem slice?_eq_some_iff {start stop : Nat} :
    slice? s start stop = some t ↔
      ∃ u v, s = u ++ (t ++ v) ∧ byteLength u = start ∧ start + byteLength t = stop := by
  rw [slice?]
  constructor
  · intro h
    rw [Option.ite_none_right_eq_some] at h
    obtain ⟨hle, h⟩ := h
    obtain ⟨⟨u, rest⟩, hstart, h⟩ := Option.bind_eq_some_iff.1 h
    obtain ⟨⟨part, v⟩, hstop, h⟩ := Option.bind_eq_some_iff.1 h
    cases h
    obtain ⟨rfl, rfl⟩ := splitAtByte?_eq_some_iff.1 hstart
    obtain ⟨rfl, hlength⟩ := splitAtByte?_eq_some_iff.1 hstop
    exact ⟨u, v, rfl, rfl, by omega⟩
  · rintro ⟨u, v, rfl, rfl, rfl⟩
    have hpart : splitAtByte? (byteLength u + byteLength t - byteLength u) (t ++ v) =
        some (t, v) := by
      rw [Nat.add_sub_cancel_left, splitAtByte?_append]
    rw [if_pos (Nat.le_add_right _ _), splitAtByte?_append]
    dsimp only [Option.bind_eq_bind, Option.bind_some]
    rw [hpart]
    rfl

/-! ## The bytes of a character -/

theorem utf8EncodeChar_of_lt (h : c.toNat < 0x80) : String.utf8EncodeChar c = [c.toUInt8] := by
  refine String.utf8EncodeChar_eq_singleton (Char.utf8Size_eq_one_iff.2 ?_)
  rw [UInt32.le_iff_toNat_le]
  exact Nat.le_of_lt_succ h

theorem toNat_toUInt8_of_lt (h : c.toNat < 0x80) : c.toUInt8.toNat = c.toNat := by
  have hmod : c.toUInt8.toNat = c.toNat % 256 := rfl
  omega

theorem utf8Size_of_lt (h : c.toNat < 0x80) : c.utf8Size = 1 := by
  rw [← String.length_utf8EncodeChar, utf8EncodeChar_of_lt h]
  rfl

/-- All bytes of a character that is no ASCII are above 0x7F. -/
theorem le_of_mem_utf8EncodeChar (hc : 0x80 ≤ c.toNat) (h : b ∈ String.utf8EncodeChar c) :
    0x80 ≤ b.toNat := by
  have hval : c.val.toNat = c.toNat := rfl
  rw [String.utf8EncodeChar, if_neg (by omega)] at h
  split at h
  · simp only [List.mem_cons, List.not_mem_nil, or_false] at h
    rcases h with rfl | rfl <;> simp only [UInt8.toNat_ofNat'] <;> omega
  split at h
  · simp only [List.mem_cons, List.not_mem_nil, or_false] at h
    rcases h with rfl | rfl | rfl <;> simp only [UInt8.toNat_ofNat'] <;> omega
  · simp only [List.mem_cons, List.not_mem_nil, or_false] at h
    rcases h with rfl | rfl | rfl | rfl <;> simp only [UInt8.toNat_ofNat'] <;> omega

theorem not_mem_utf8EncodeChar (ha : a.toNat < 0x80) (h : c ≠ a) :
    a.toUInt8 ∉ String.utf8EncodeChar c := by
  intro hmem
  by_cases hc : c.toNat < 0x80
  · rw [utf8EncodeChar_of_lt hc, List.mem_singleton] at hmem
    refine h (Char.toNat_inj.1 ?_)
    rw [← toNat_toUInt8_of_lt ha, hmem, toNat_toUInt8_of_lt hc]
  · have hle := le_of_mem_utf8EncodeChar (Nat.le_of_not_lt hc) hmem
    rw [toNat_toUInt8_of_lt ha] at hle
    omega

theorem le_of_mem_tail (h : b ∈ (String.utf8EncodeChar c).tail) : 0x80 ≤ b.toNat := by
  by_cases hc : c.toNat < 0x80
  · rw [utf8EncodeChar_of_lt hc] at h
    cases h
  · exact le_of_mem_utf8EncodeChar (Nat.le_of_not_lt hc) (List.mem_of_mem_tail h)

/-! ## What is left at an offset -/

/-- What is left of a text at an offset, which lies within no character. -/
def IsRest (text : List Char) (offset : Nat) (rest : List Char) : Prop :=
  ∃ front, text = front ++ rest ∧ byteLength front = offset

namespace IsRest

theorem zero (text : List Char) : IsRest text 0 text := ⟨[], rfl, rfl⟩

theorem append (h : IsRest text i (s ++ rest)) : IsRest text (i + byteLength s) rest := by
  obtain ⟨front, rfl, rfl⟩ := h
  exact ⟨front ++ s, (List.append_assoc _ _ _).symm, byteLength_append _ _⟩

theorem tail (h : IsRest text i (c :: rest)) : IsRest text (i + c.utf8Size) rest := by
  have hrest := append (s := [c]) h
  rwa [byteLength_cons, byteLength_nil, Nat.add_zero] at hrest

theorem tail_ascii (h : IsRest text i (c :: rest)) (hc : c.toNat < 0x80) :
    IsRest text (i + 1) rest := by
  have hrest := h.tail
  rwa [utf8Size_of_lt hc] at hrest

theorem add_byteLength (h : IsRest text i rest) : i + byteLength rest = byteLength text := by
  obtain ⟨front, rfl, rfl⟩ := h
  rw [byteLength_append]

theorem eq_sub (h : IsRest text i rest) : i = byteLength text - byteLength rest := by
  have hlength := h.add_byteLength
  omega

theorem suffix (h : IsRest text i rest) : rest <:+ text := by
  obtain ⟨front, rfl, -⟩ := h
  exact List.suffix_append front rest

theorem of_suffix (h : rest <:+ text) :
    IsRest text (byteLength text - byteLength rest) rest := by
  obtain ⟨front, rfl⟩ := h
  refine ⟨front, rfl, ?_⟩
  rw [byteLength_append, Nat.add_sub_cancel_right]

theorem splitAtByte? (h : IsRest text i rest) :
    ∃ front, Text.splitAtByte? i text = some (front, rest) := by
  obtain ⟨front, htext, hlength⟩ := h
  exact ⟨front, splitAtByte?_eq_some_iff.2 ⟨htext, hlength⟩⟩

theorem unique (h : IsRest text i s) (h' : IsRest text i t) : s = t := by
  obtain ⟨front, hs⟩ := h.splitAtByte?
  obtain ⟨front', ht⟩ := h'.splitAtByte?
  rw [hs, Option.some.injEq, Prod.mk.injEq] at ht
  exact ht.2

theorem slice? (h : IsRest text i (s ++ rest)) :
    Text.slice? text i (i + byteLength s) = some s := by
  obtain ⟨front, htext, hlength⟩ := h
  exact slice?_eq_some_iff.2 ⟨front, rest, htext, hlength, rfl⟩

theorem slice?_end (h : IsRest text i rest) : Text.slice? text i (byteLength text) = some rest := by
  have hend : IsRest text i (rest ++ []) := by rwa [List.append_nil]
  have hslice := hend.slice?
  rwa [h.add_byteLength] at hslice

theorem getElem?_bytes (h : IsRest text i rest) (j : Nat) :
    (bytes text)[i + j]? = (bytes rest)[j]? := by
  obtain ⟨front, rfl, rfl⟩ := h
  have hle : (bytes front).length ≤ byteLength front + j := Nat.le_add_right _ _
  rw [bytes_append, List.getElem?_append_right hle, byteLength, Nat.add_sub_cancel_left]

theorem getElem?_of_ascii (h : IsRest text i (c :: rest)) (hc : c.toNat < 0x80) :
    (bytes text)[i]? = some c.toUInt8 := by
  have hfirst := h.getElem?_bytes 0
  rwa [bytes_cons, utf8EncodeChar_of_lt hc] at hfirst

theorem exists_getElem? (h : IsRest text i (c :: rest)) :
    ∃ b, (bytes text)[i]? = some b ∧ b ∈ String.utf8EncodeChar c := by
  have hpos := c.utf8Size_pos
  have hlt : 0 < (String.utf8EncodeChar c).length := by rwa [String.length_utf8EncodeChar]
  refine ⟨(String.utf8EncodeChar c)[0], ?_, List.getElem_mem hlt⟩
  have hfirst := h.getElem?_bytes 0
  rwa [bytes_cons, List.getElem?_append_left hlt, List.getElem?_eq_getElem hlt] at hfirst

theorem eq_end (h : IsRest text i []) : i = byteLength text := by
  have hlength := h.add_byteLength
  rwa [byteLength_nil, Nat.add_zero] at hlength

theorem not_lt (h : IsRest text i []) : ¬i < (bytes text).length := by
  rw [length_bytes, ← h.eq_end]
  exact Nat.lt_irrefl i

/-- The byte at an offset is that of an ASCII character if that character is the next one. -/
theorem getElem?_eq_some_iff (h : IsRest text i rest) (ha : a.toNat < 0x80) :
    (bytes text)[i]? = some a.toUInt8 ↔ rest.head? = some a := by
  cases rest with
  | nil => simp [List.getElem?_eq_none (Nat.le_of_not_lt h.not_lt)]
  | cons c rest =>
    rw [List.head?_cons, Option.some.injEq]
    constructor
    · intro hbyte
      obtain ⟨b, hb, hmem⟩ := h.exists_getElem?
      rw [hb, Option.some.injEq] at hbyte
      by_contra hc
      exact not_mem_utf8EncodeChar ha hc (hbyte ▸ hmem)
    · rintro rfl
      exact h.getElem?_of_ascii ha

/-- A function of offsets that does not change from one byte of a character to the next one. -/
theorem pass_from {α : Type} {f : Nat → α} {j : Nat} (h : IsRest text i (c :: rest))
    (hj : j ≤ c.utf8Size)
    (hf : ∀ k b, (bytes text)[k]? = some b → b ∈ (String.utf8EncodeChar c).drop j →
      f k = f (k + 1)) : f (i + j) = f (i + c.utf8Size) := by
  obtain ⟨n, hn⟩ := Nat.exists_eq_add_of_le hj
  clear hj
  induction n generalizing j with
  | zero => rw [hn, Nat.add_zero]
  | succ n ih =>
    have hlt : j < (String.utf8EncodeChar c).length := by
      rw [String.length_utf8EncodeChar]
      omega
    have hbyte : (bytes text)[i + j]? = some (String.utf8EncodeChar c)[j] := by
      rw [h.getElem?_bytes, bytes_cons, List.getElem?_append_left hlt,
        List.getElem?_eq_getElem hlt]
    have hmem : (String.utf8EncodeChar c)[j] ∈ (String.utf8EncodeChar c).drop j := by
      rw [List.drop_eq_getElem_cons hlt]
      exact List.mem_cons_self
    rw [hf _ _ hbyte hmem, Nat.add_assoc]
    refine ih (fun k b hb hdrop => hf k b hb ?_) (by omega)
    rw [List.drop_eq_getElem_cons hlt]
    exact List.mem_cons_of_mem _ hdrop

theorem pass {α : Type} {f : Nat → α} (h : IsRest text i (c :: rest))
    (hf : ∀ k b, (bytes text)[k]? = some b → b ∈ String.utf8EncodeChar c → f k = f (k + 1)) :
    f i = f (i + c.utf8Size) :=
  h.pass_from (Nat.zero_le _) hf

end IsRest

end TranslationAudit.Text
