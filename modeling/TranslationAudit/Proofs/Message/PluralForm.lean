import TranslationAudit.Message.Key
import TranslationAudit.Proofs.Text.Blank
import TranslationAudit.Proofs.Text.Cut

/-! # Identifiers of plural forms

* `exists_eq_zeros_append`: a run of digits is the numeral of its value behind some zeros.
* `IsPluralForm`, `splitPluralForm_eq_some_iff`: what is read as a form of a base.
* `splitPluralForm_pluralFormId`: the identifier of a form is read as base and index.
* `pluralFormId_inj`: the identifier of a form determines its base and its index.
* `splitPluralForm_exact`: forms are written without ambiguity, and nothing else is read as one.
* `trimmed_pluralFormId`: a form has outer blanks only where its base begins with one.
-/

namespace TranslationAudit

variable {id base : String} {n : Nat} {c : Char} {ds : List Char}

/-! ## Numerals -/

theorem digitsValue_eq_ofDigitChars (ds : List Char) :
    digitsValue ds = Nat.ofDigitChars 10 ds 0 := by
  rw [digitsValue, Nat.ofDigitChars_eq_foldl]

theorem digitsValue_toDigits (n : Nat) : digitsValue (Nat.toDigits 10 n) = n := by
  rw [digitsValue_eq_ofDigitChars, Nat.ofDigitChars_ten_toDigits]

theorem digitsValue_zeros_append (zeros : Nat) (ds : List Char) :
    digitsValue (List.replicate zeros '0' ++ ds) = digitsValue ds := by
  rw [digitsValue_eq_ofDigitChars, Nat.ofDigitChars_append, Nat.ofDigitChars_replicate_zero,
    Nat.mul_zero, digitsValue_eq_ofDigitChars]

theorem isDigit_of_mem_toDigits {n : Nat} {c : Char} (h : c ∈ Nat.toDigits 10 n) :
    c.isDigit = true := Nat.isDigit_of_mem_toDigits (by decide) (by decide) h

theorem isDigit_of_mem_zeros_append {zeros : Nat}
    (h : c ∈ List.replicate zeros '0' ++ Nat.toDigits 10 n) : c.isDigit = true := by
  rcases List.mem_append.1 h with h | h
  · rw [List.eq_of_mem_replicate h]
    rfl
  · exact isDigit_of_mem_toDigits h

theorem digit_lt_ten (h : c.isDigit = true) : c.toNat - '0'.toNat < 10 := by
  have hhigh := (Char.isDigit_iff_toNat.1 h).2
  have hzero : '0'.toNat = 48 := rfl
  have hnine : '9'.toNat = 57 := rfl
  omega

theorem toDigits_digit (h : c.isDigit = true) : Nat.toDigits 10 (c.toNat - '0'.toNat) = [c] := by
  have hlow := (Char.isDigit_iff_toNat.1 h).1
  have hzero : '0'.toNat = 48 := rfl
  have hlt := digit_lt_ten h
  rw [Nat.toDigits_of_lt_base hlt, List.singleton_inj, ← Char.toNat_inj,
    Nat.toNat_digitChar_of_lt_ten hlt]
  omega

/-- More digits behind the numeral of a number that is not zero make another numeral. -/
theorem toDigits_append (hn : 0 < n) (hds : ∀ c ∈ ds, c.isDigit = true) :
    Nat.toDigits 10 n ++ ds = Nat.toDigits 10 (Nat.ofDigitChars 10 ds n) := by
  induction ds generalizing n with
  | nil => rw [List.append_nil, Nat.ofDigitChars_nil]
  | cons c ds ih =>
    rw [List.forall_mem_cons] at hds
    rw [Nat.ofDigitChars_cons, ← ih (by omega) hds.2,
      ← Nat.toDigits_append_toDigits (by decide) hn (digit_lt_ten hds.1), toDigits_digit hds.1,
      List.append_assoc, List.singleton_append]

/-- A run of digits is the numeral of its value behind some zeros. -/
theorem exists_eq_zeros_append (hne : ds ≠ []) (hds : ∀ c ∈ ds, c.isDigit = true) :
    ∃ zeros, ds = List.replicate zeros '0' ++ Nat.toDigits 10 (digitsValue ds) := by
  induction ds with
  | nil => exact absurd rfl hne
  | cons c ds ih =>
    rw [List.forall_mem_cons] at hds
    rw [digitsValue_eq_ofDigitChars, Nat.ofDigitChars_cons, Nat.mul_zero, Nat.zero_add]
    by_cases hc : c = '0'
    · subst hc
      rw [Nat.sub_self, ← digitsValue_eq_ofDigitChars]
      -- the numeral of zero is itself a zero, which the last digit has to be
      by_cases hlast : ds = []
      · subst hlast
        exact ⟨0, rfl⟩
      · obtain ⟨zeros, hzeros⟩ := ih hlast hds.2
        refine ⟨zeros + 1, ?_⟩
        rw [List.replicate_succ, List.cons_append, ← hzeros]
    · have hpos : 0 < c.toNat - '0'.toNat := by
        have hlow := (Char.isDigit_iff_toNat.1 hds.1).1
        have hcode := mt Char.toNat_inj.1 hc
        omega
      refine ⟨0, ?_⟩
      rw [← toDigits_append hpos hds.2, toDigits_digit hds.1]
      rfl

/-! ## Writing forms -/

theorem toList_pluralFormId (base : String) (n : Nat) :
    (pluralFormId base n).toList = base.toList ++ '[' :: (Nat.toDigits 10 n ++ [']']) := by
  simp [pluralFormId]

theorem cutAtLast?_numeral (base : List Char) (hds : ∀ c ∈ ds, c.isDigit = true) :
    Text.cutAtLast? '[' (base ++ '[' :: (ds ++ [']'])) = some (base, ds ++ [']']) := by
  have hbracket : '[' ∉ ds ++ [']'] := by
    intro hm
    rcases List.mem_append.1 hm with hm | hm
    · exact absurd (hds _ hm) (by decide)
    · exact absurd hm (by decide)
  exact Text.cutAtLast?_append base hbracket

theorem cutAtLast?_pluralFormId (base : String) (n : Nat) :
    Text.cutAtLast? '[' (pluralFormId base n).toList =
      some (base.toList, Nat.toDigits 10 n ++ [']']) := by
  rw [toList_pluralFormId, cutAtLast?_numeral base.toList fun _ => isDigit_of_mem_toDigits]

/-- The identifier of a form determines its base and its index. -/
theorem pluralFormId_inj {base other : String} {m n : Nat} :
    pluralFormId base m = pluralFormId other n ↔ base = other ∧ m = n := by
  constructor
  · intro h
    have hcut := congrArg (fun id : String => Text.cutAtLast? '[' id.toList) h
    simp only [cutAtLast?_pluralFormId, Option.some.injEq, Prod.mk.injEq] at hcut
    obtain ⟨hbase, hdigits⟩ := hcut
    have hvalue := congrArg digitsValue (List.append_cancel_right hdigits)
    rw [digitsValue_toDigits, digitsValue_toDigits] at hvalue
    exact ⟨String.ext hbase, hvalue⟩
  · rintro ⟨rfl, rfl⟩
    rfl

/-! ## Reading forms -/

theorem splitPluralForm_eq_some_iff_digits :
    splitPluralForm id = some (base, n) ↔
      base ≠ "" ∧ n < formLimit ∧ ∃ ds, ds ≠ [] ∧ (∀ c ∈ ds, c.isDigit = true) ∧
        digitsValue ds = n ∧ id.toList = base.toList ++ '[' :: (ds ++ [']']) := by
  rw [splitPluralForm]
  constructor
  · intro h
    cases hcut : Text.cutAtLast? '[' id.toList with
    | none => rw [hcut] at h; cases h
    | some parts =>
      obtain ⟨front, rest⟩ := parts
      rw [hcut] at h
      dsimp only at h
      cases hbefore : Text.before? [']'] rest with
      | none => rw [hbefore] at h; cases h
      | some ds =>
        rw [hbefore] at h
        dsimp only at h
        rw [Option.ite_none_left_eq_some, Option.ite_none_right_eq_some] at h
        obtain ⟨hparts, hlimit, heq⟩ := h
        cases heq
        simp only [Bool.or_eq_true, not_or, List.isEmpty_iff, Bool.not_eq_true',
          Bool.not_eq_false, List.all_eq_true] at hparts
        obtain ⟨⟨hfront, hne⟩, hds⟩ := hparts
        refine ⟨?_, hlimit, ds, hne, hds, rfl, ?_⟩
        · exact fun hbase => hfront (by simpa using congrArg String.toList hbase)
        · rw [(Text.eq_append_of_cutAtLast? hcut).1, Text.before?_eq_some_iff.1 hbefore,
            String.toList_ofList]
  · rintro ⟨hbase, hlimit, ds, hne, hds, rfl, hid⟩
    have hfront : base.toList.isEmpty = false := by simpa using hbase
    have hsome : ds.isEmpty = false := by simpa using hne
    rw [hid, cutAtLast?_numeral base.toList hds]
    simp only [Text.before?_concat, hfront, hsome, List.all_eq_true.2 hds, hlimit,
      Bool.not_true, Bool.or_self, Bool.false_eq_true, if_false, if_true, String.ofList_toList]

/-- The identifiers of a form of a base: the base and, in brackets, the index in decimal digits,
with any number of zeros before them. Indexes are 64 bit words. -/
structure IsPluralForm (id base : String) (n : Nat) : Prop where
  base_ne_empty : base ≠ ""
  lt_limit : n < UInt64.size
  spelling : ∃ zeros,
    id = base ++ "[" ++ String.ofList (List.replicate zeros '0') ++ toString n ++ "]"

/-- Exactly the identifiers of a form are read as this form. -/
theorem splitPluralForm_eq_some_iff :
    splitPluralForm id = some (base, n) ↔ IsPluralForm id base n := by
  have hspelling (zeros : Nat) :
      id = base ++ "[" ++ String.ofList (List.replicate zeros '0') ++ toString n ++ "]" ↔
        id.toList = base.toList ++
          '[' :: ((List.replicate zeros '0' ++ Nat.toDigits 10 n) ++ [']']) := by
    rw [← String.toList_inj]
    simp
  rw [splitPluralForm_eq_some_iff_digits]
  constructor
  · rintro ⟨hbase, hlimit, ds, hne, hds, rfl, hid⟩
    obtain ⟨zeros, hzeros⟩ := exists_eq_zeros_append hne hds
    exact ⟨hbase, hlimit, zeros, (hspelling zeros).2 (hzeros ▸ hid)⟩
  · rintro ⟨hbase, hlimit, zeros, hid⟩
    have hne : List.replicate zeros '0' ++ Nat.toDigits 10 n ≠ [] :=
      List.append_ne_nil_of_right_ne_nil _ Nat.toDigits_ne_nil
    have hvalue : digitsValue (List.replicate zeros '0' ++ Nat.toDigits 10 n) = n := by
      rw [digitsValue_zeros_append, digitsValue_toDigits]
    exact ⟨hbase, hlimit, _, hne, fun _ => isDigit_of_mem_zeros_append, hvalue,
      (hspelling zeros).1 hid⟩

theorem isPluralForm_pluralFormId (hbase : base ≠ "") (hn : n < formLimit) :
    IsPluralForm (pluralFormId base n) base n :=
  ⟨hbase, hn, 0, by simp [pluralFormId]⟩

/-- The identifier of a form is read as base and index. -/
theorem splitPluralForm_pluralFormId {base : String} (hbase : base ≠ "") {n : Nat}
    (hn : n < formLimit) : splitPluralForm (pluralFormId base n) = some (base, n) :=
  splitPluralForm_eq_some_iff.2 (isPluralForm_pluralFormId hbase hn)

theorem splitPluralForm_eq_some {id base : String} {n : Nat}
    (h : splitPluralForm id = some (base, n)) : base ≠ "" ∧ n < formLimit :=
  ⟨(splitPluralForm_eq_some_iff.1 h).base_ne_empty, (splitPluralForm_eq_some_iff.1 h).lt_limit⟩

/-- A form is read back, whatever brackets its base holds, no two forms are written alike, and an
identifier is read as a form if and only if it is one. -/
theorem splitPluralForm_exact :
    (∀ base n, base ≠ "" → n < UInt64.size →
        splitPluralForm (pluralFormId base n) = some (base, n)) ∧
      (∀ base other m n, pluralFormId base m = pluralFormId other n ↔ base = other ∧ m = n) ∧
      (∀ id base n, splitPluralForm id = some (base, n) ↔ IsPluralForm id base n) ∧
      ∀ id, splitPluralForm id = none ↔ ∀ base n, ¬IsPluralForm id base n := by
  refine ⟨?_, ?_, ?_, ?_⟩
  · intro base n hbase hn
    exact splitPluralForm_pluralFormId hbase hn
  · intro base other m n
    exact pluralFormId_inj
  · intro id base n
    exact splitPluralForm_eq_some_iff
  · intro id
    simp only [Option.eq_none_iff_forall_ne_some, Prod.forall, Ne, splitPluralForm_eq_some_iff]

/-- A base that looks like a form itself, with the largest index. -/
theorem splitPluralForm_exact_nested :
    "a[3][0" ≠ "" ∧ 18446744073709551615 < UInt64.size ∧
      splitPluralForm "a[3][0[18446744073709551615]" = some ("a[3][0", 18446744073709551615) := by
  have hbase : "a[3][0" ≠ "" := by decide
  have hn : 18446744073709551615 < UInt64.size := by decide
  exact ⟨hbase, hn, splitPluralForm_exact.1 _ _ hbase hn⟩

example : splitPluralForm "a[3][007]" = some ("a[3]", 7) := by decide

example : splitPluralForm "a[3][18446744073709551616]" = none := by decide

/-! ## Blanks -/

/-- The identifier of a form has no outer blanks unless its base begins with one. -/
theorem trimmed_pluralFormId {base : String} (hbase : base ≠ "")
    (hstart : Text.trimStart base.toList = base.toList) (n : Nat) :
    Text.trimmed (pluralFormId base n) = pluralFormId base n := by
  unfold Text.trimStart at hstart
  have hsome : base.toList.isEmpty = false := by simpa using hbase
  have hdrop : (pluralFormId base n).toList.dropWhile Text.isBlank =
      (pluralFormId base n).toList := by
    rw [toList_pluralFormId, List.dropWhile_append, hstart, hsome]
    rfl
  have hbracket : Text.isBlank ']' = false := by decide
  have hend : Text.dropEndWhile Text.isBlank (pluralFormId base n).toList =
      (pluralFormId base n).toList := by
    rw [Text.dropEndWhile, toList_pluralFormId]
    simp [hbracket]
  rw [Text.trimmed, Text.trim, Text.stripWhile, hdrop, hend, String.ofList_toList]

end TranslationAudit
