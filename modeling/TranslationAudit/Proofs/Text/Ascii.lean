import TranslationAudit.Text.Blank

/-! # ASCII characters

Facts about these characters are checked for one code after another.

* `of_ascii`: what holds of every code below 0x80 holds of an ASCII character.
* `toLower_of_le`: no other character has a lower case form of its own in `Char.toLower`.
* `toLower_eq_slash`, `toLower_of_isDigit`, `isDigit_toLower`: slashes and digits have no case.
-/

namespace TranslationAudit.Text

variable {c : Char}

theorem of_ascii (P : Char → Prop) (h : ∀ n < 0x80, P (Char.ofNat n)) (hc : c.toNat < 0x80) :
    P c := by
  have hcode := h c.toNat hc
  rwa [Char.ofNat_toNat] at hcode

theorem toLower_of_le (h : 0x80 ≤ c.toNat) : c.toLower = c := by
  refine dif_neg ?_
  simp only [Char.toNat, UInt32.le_iff_toNat_le, not_and, ge_iff_le] at h ⊢
  intro _ hle
  have hbound : 'Z'.val.toNat = 90 := rfl
  omega

theorem toLower_eq_slash : c.toLower = '/' ↔ c = '/' := by
  by_cases hc : c.toNat < 0x80
  · exact of_ascii (fun c => c.toLower = '/' ↔ c = '/') (by decide) hc
  · rw [toLower_of_le (Nat.le_of_not_lt hc)]

theorem toLower_of_isDigit (hc : c.toNat < 0x80) : c.isDigit = true → c.toLower = c :=
  of_ascii (fun c => c.isDigit = true → c.toLower = c) (by decide) hc

theorem isDigit_toLower (hc : c.toNat < 0x80) : c.isDigit = false → c.toLower.isDigit = false :=
  of_ascii (fun c => c.isDigit = false → c.toLower.isDigit = false) (by decide) hc

end TranslationAudit.Text
