import Mathlib.Algebra.Group.Nat.Defs
import Mathlib.Data.List.Basic
import Mathlib.Data.List.TakeWhile
import TranslationAudit.Message.Key
import TranslationAudit.Proofs.Text.Cut
import TranslationAudit.Proofs.Text.NaturalOrder

/-! # Numbers in natural order

* `digitsValue_cons`: the value of a run of digits, by its first digit.
* `compareNumerals_eq`: runs of any length compare as their values.
* `sortTokens_append`: a text that does not end in a digit is a token list of its own in front of
  any other text.
* `compareNatural_total`: natural order is total, and where the first difference of two texts are
  numbers, it is the order of these numbers.
-/

namespace TranslationAudit.Text

variable {a b : Char} {as bs front rest : List Char}

/-! ## Values of digit runs -/

/-- The value of a digit. -/
def digitValue (c : Char) : Nat := c.toNat - '0'.toNat

theorem digitsValue_cons (a : Char) (as : List Char) :
    digitsValue (a :: as) = digitValue a * 10 ^ as.length + digitsValue as := by
  have hvalue (ds : List Char) (n : Nat) :
      ds.foldl (fun n d => 10 * n + (d.toNat - '0'.toNat)) n = Nat.ofDigitChars 10 ds n :=
    Nat.ofDigitChars_eq_foldl.symm
  rw [digitsValue, digitsValue, hvalue, hvalue, Nat.ofDigitChars_cons,
    Nat.ofDigitChars_eq_ofDigitChars_zero, Nat.mul_zero, Nat.zero_add, Nat.mul_comm, digitValue]

theorem digitValue_le (h : a.isDigit = true) : digitValue a ≤ 9 := by
  have hbounds := isDigit_iff.1 h
  have hzero : '0'.toNat = 48 := rfl
  rw [digitValue]
  omega

theorem compare_congr {x y x' y' : Nat} (hlt : x < y ↔ x' < y') (heq : x = y ↔ x' = y') :
    compare x y = compare x' y' := by
  change compareOfLessAndEq x y = compareOfLessAndEq x' y'
  simp only [compareOfLessAndEq, hlt, heq]

theorem compare_char (a b : Char) : compare a b = compare a.toNat b.toNat := by
  change compareOfLessAndEq a b = compareOfLessAndEq a.toNat b.toNat
  simp only [compareOfLessAndEq, Char.toNat_inj]
  rfl

theorem compare_digitValue (ha : a.isDigit = true) (hb : b.isDigit = true) :
    compare a b = compare (digitValue a) (digitValue b) := by
  have ha' := (isDigit_iff.1 ha).1
  have hb' := (isDigit_iff.1 hb).1
  have hzero : '0'.toNat = 48 := rfl
  rw [compare_char, digitValue, digitValue, hzero]
  exact compare_congr (by omega) (by omega)

theorem digitsValue_lt (h : ∀ c ∈ as, c.isDigit = true) : digitsValue as < 10 ^ as.length := by
  induction as with
  | nil => exact Nat.one_pos
  | cons a as ih =>
    rw [List.forall_mem_cons] at h
    have hdigit := Nat.mul_le_mul_right (10 ^ as.length) (digitValue_le h.1)
    have hrest := ih h.2
    rw [digitsValue_cons, List.length_cons, Nat.pow_succ]
    omega

theorem le_digitsValue (h : digitValue a ≠ 0) : 10 ^ as.length ≤ digitsValue (a :: as) := by
  have hdigit := Nat.mul_le_mul_right (10 ^ as.length) (Nat.one_le_iff_ne_zero.2 h)
  rw [digitsValue_cons]
  omega

theorem digitsValue_dropWhile_zero (as : List Char) :
    digitsValue (as.dropWhile (· = '0')) = digitsValue as := by
  induction as with
  | nil => rfl
  | cons a as ih =>
    rw [List.dropWhile_cons]
    split
    · next hzero =>
      have ha : a = '0' := by simpa using hzero
      rw [ih, digitsValue_cons, ha, digitValue, Nat.sub_self, Nat.zero_mul, Nat.zero_add]
    · rfl

/-! ## Runs compare as their values -/

/-- The higher place of two numbers decides before the lower ones. -/
theorem compare_mul_add {d e x y base : Nat} (hx : x < base) (hy : y < base) :
    compare (d * base + x) (e * base + y) = (compare d e).then (compare x y) := by
  have higher {d e x : Nat} (y : Nat) (hx : x < base) (h : d < e) :
      d * base + x < e * base + y := by
    have hplace := Nat.mul_le_mul_right base h
    rw [Nat.succ_mul] at hplace
    omega
  rcases Nat.lt_trichotomy d e with h | rfl | h
  · rw [Nat.compare_eq_lt.2 h, Nat.compare_eq_lt.2 (higher y hx h)]
    rfl
  · rw [Nat.compare_eq_eq.2 (rfl : d = d)]
    exact compare_congr (by omega) (by omega)
  · rw [Nat.compare_eq_gt.2 h, Nat.compare_eq_gt.2 (higher x hy h)]
    rfl

/-- Runs of one length compare as their values. -/
theorem compare_of_length_eq (has : ∀ c ∈ as, c.isDigit = true) (hbs : ∀ c ∈ bs, c.isDigit = true)
    (hlength : as.length = bs.length) :
    compare as bs = compare (digitsValue as) (digitsValue bs) := by
  induction as generalizing bs with
  | nil =>
    cases bs with
    | nil => rfl
    | cons b bs => cases hlength
  | cons a as ih =>
    cases bs with
    | nil => cases hlength
    | cons b bs =>
      rw [List.forall_mem_cons] at has hbs
      have hrest : as.length = bs.length := Nat.succ.inj hlength
      have hcons : compare (a :: as) (b :: bs) = (compare a b).then (compare as bs) :=
        List.compareLex_cons_cons
      rw [hcons, compare_digitValue has.1 hbs.1, ih has.2 hbs.2 hrest, digitsValue_cons,
        digitsValue_cons, hrest, compare_mul_add (hrest ▸ digitsValue_lt has.2) (digitsValue_lt hbs.2)]

/-- Of runs without leading zeros the longer one is larger. -/
theorem digitsValue_lt_of_length_lt (has : ∀ c ∈ as, c.isDigit = true)
    (hbs : bs.head? ≠ some '0') (hdigits : ∀ c ∈ bs, c.isDigit = true)
    (hlength : as.length < bs.length) : digitsValue as < digitsValue bs := by
  cases bs with
  | nil => cases hlength
  | cons b bs =>
    have hb : digitValue b ≠ 0 := by
      have hbound := (isDigit_iff.1 (hdigits b List.mem_cons_self)).1
      have hne : b.toNat ≠ '0'.toNat := fun h => hbs (congrArg some (Char.toNat_inj.1 h))
      have hzero : '0'.toNat = 48 := rfl
      rw [digitValue]
      omega
    calc digitsValue as < 10 ^ as.length := digitsValue_lt has
      _ ≤ 10 ^ bs.length := Nat.pow_le_pow_right (by decide) (Nat.le_of_lt_succ hlength)
      _ ≤ digitsValue (b :: bs) := le_digitsValue hb

/-- Runs of digits compare as their values. -/
theorem compareNumerals_eq (has : ∀ c ∈ as, c.isDigit = true)
    (hbs : ∀ c ∈ bs, c.isDigit = true) :
    compareNumerals as bs = compare (digitsValue as) (digitsValue bs) := by
  have digits_dropWhile {ds : List Char} (h : ∀ c ∈ ds, c.isDigit = true) :
      ∀ c ∈ ds.dropWhile (· = '0'), c.isDigit = true :=
    fun c hc => h c ((List.dropWhile_suffix _).subset hc)
  have head_dropWhile (ds : List Char) : (ds.dropWhile (· = '0')).head? ≠ some '0' := by
    intro h
    have hnot := List.head?_dropWhile_not (fun c => decide (c = '0')) ds
    rw [h] at hnot
    simp at hnot
  rw [← digitsValue_dropWhile_zero as, ← digitsValue_dropWhile_zero bs, compareNumerals]
  have has' := digits_dropWhile has
  have hbs' := digits_dropWhile hbs
  rcases Nat.lt_trichotomy (as.dropWhile (· = '0')).length (bs.dropWhile (· = '0')).length with
    h | h | h
  · rw [Nat.compare_eq_lt.2 h,
      Nat.compare_eq_lt.2 (digitsValue_lt_of_length_lt has' (head_dropWhile bs) hbs' h)]
    rfl
  · rw [Nat.compare_eq_eq.2 h, compare_of_length_eq has' hbs' h]
    rfl
  · rw [Nat.compare_eq_gt.2 h,
      Nat.compare_eq_gt.2 (digitsValue_lt_of_length_lt hbs' (head_dropWhile as) has' h)]
    rfl

/-! ## Tokens of joined texts -/

/-- A run of digits is one token. -/
theorem sortTokens_run {run : List Char} (hne : run ≠ []) (hrun : ∀ c ∈ run, c.isDigit = true)
    (hrest : ∀ c ∈ rest.head?, c.isDigit = false) :
    sortTokens (run ++ rest) = .ofDigits run :: sortTokens rest := by
  obtain ⟨c, run, rfl⟩ := List.exists_cons_of_ne_nil hne
  have hrun' := (List.forall_mem_cons.1 hrun).2
  rw [List.cons_append, sortTokens_digit (hrun c List.mem_cons_self), ← List.cons_append]
  cases rest with
  | nil =>
    rw [List.append_nil, List.append_nil, List.takeWhile_eq_self_iff.2 hrun,
      List.dropWhile_eq_nil_iff.2 hrun']
  | cons d rest =>
    have hd := hrest d rfl
    rw [takeWhile_append_cons hrun hd, dropWhile_append_cons hrun' hd]

/-- A text that does not end in a digit is cut into tokens on its own. -/
theorem sortTokens_append (hfront : ∀ c ∈ front.getLast?, c.isDigit = false) (rest : List Char) :
    sortTokens (front ++ rest) = sortTokens front ++ sortTokens rest := by
  fun_induction sortTokens front with
  | case1 => rfl
  | case2 c r hc ih =>
    have hdrop : (c :: r).dropWhile Char.isDigit = r.dropWhile Char.isDigit := by
      rw [List.dropWhile_cons, if_pos hc]
    have hsplit := List.takeWhile_append_dropWhile (p := Char.isDigit) (l := c :: r)
    have hdigits : ∀ d ∈ (c :: r).takeWhile Char.isDigit, d.isDigit = true :=
      List.all_eq_true.1 List.all_takeWhile
    have hne : (c :: r).takeWhile Char.isDigit ≠ [] := by simp [hc]
    rw [hdrop] at hsplit
    -- the run ends within the front part
    cases hrest : r.dropWhile Char.isDigit with
    | nil =>
      rw [hrest, List.append_nil] at hsplit
      rw [hsplit] at hdigits
      have hlast := List.getLast_mem (List.cons_ne_nil c r)
      have hnot := hfront _ (List.getLast?_eq_some_getLast (List.cons_ne_nil c r))
      rw [hdigits _ hlast] at hnot
      cases hnot
    | cons d t =>
      rw [hrest] at hsplit ih
      have hd : d.isDigit = false := by
        have hnot := List.head?_dropWhile_not Char.isDigit r
        rwa [hrest] at hnot
      have hlast : (c :: r).getLast? = (d :: t).getLast? := by
        rw [← hsplit, List.getLast?_append_cons]
      have hjoined : c :: r ++ rest = (c :: r).takeWhile Char.isDigit ++ (d :: t ++ rest) := by
        rw [← List.append_assoc, hsplit]
      rw [hjoined, sortTokens_run hne hdigits (by rintro x ⟨⟩; exact hd), ih (hlast ▸ hfront)]
      rfl
  | case3 c r hc ih =>
    have hlast : ∀ d ∈ r.getLast?, d.isDigit = false := by
      intro d hd
      refine hfront d ?_
      rw [List.getLast?_cons, Option.mem_def.1 hd]
      rfl
    rw [List.cons_append, sortTokens_char (by simpa using hc), ih hlast]
    rfl

/-- Equal tokens in front do not count. -/
theorem compare_append_left (tokens as bs : List SortToken) :
    compare (tokens ++ as) (tokens ++ bs) = compare as bs := by
  induction tokens with
  | nil => rfl
  | cons token tokens ih =>
    have heq : compare token token = .eq := Std.ReflCmp.compare_self
    rw [List.cons_append, List.cons_append, compare_cons, heq, ih]
    rfl

/-! ## Numbers -/

/-- A run of decimal digits. -/
structure IsNumeral (s : List Char) : Prop where
  ne_nil : s ≠ []
  digits : ∀ c ∈ s, c.isDigit = true

/-- Natural order is a total order of texts. Where texts agree up to a number, and not within a
longer one, they compare as the numbers do. -/
theorem compareNatural_total :
    (∀ a b, compareNatural a b = .eq ↔ a = b) ∧
    (∀ a b, compareNatural b a = (compareNatural a b).swap) ∧
    (∀ a b c o, compareNatural a b = o → compareNatural b c = o → compareNatural a c = o) ∧
    ∀ front n m rest rest' : List Char, (∀ c ∈ front.getLast?, c.isDigit = false) →
      IsNumeral n → IsNumeral m → (∀ c ∈ rest.head?, c.isDigit = false) →
      (∀ c ∈ rest'.head?, c.isDigit = false) → digitsValue n ≠ digitsValue m →
      compareNatural (String.ofList (front ++ n ++ rest)) (String.ofList (front ++ m ++ rest')) =
        compare (digitsValue n) (digitsValue m) := by
  refine ⟨?_, ?_, ?_, ?_⟩
  · intro a b
    exact ⟨Std.LawfulEqCmp.eq_of_compare, fun h => h ▸ Std.ReflCmp.compare_self⟩
  · intro a b
    exact Std.OrientedCmp.eq_swap
  · intro a b c o hab hbc
    cases o with
    | lt => exact Std.TransCmp.lt_trans hab hbc
    | eq => exact Std.TransCmp.eq_trans hab hbc
    | gt => exact Std.TransCmp.gt_trans hab hbc
  · intro front n m rest rest' hfront hn hm hrest hrest' hne
    rw [compareNatural, compareFolded_eq, String.toList_ofList, String.toList_ofList,
      List.append_assoc, List.append_assoc, sortTokens_append hfront, sortTokens_append hfront,
      compare_append_left, sortTokens_run hn.ne_nil hn.digits hrest,
      sortTokens_run hm.ne_nil hm.digits hrest', compare_cons, SortToken.compare_ofDigits,
      compareNumerals_eq hn.digits hm.digits]
    have hvalue : compare (digitsValue n) (digitsValue m) ≠ .eq := mt Nat.compare_eq_eq.1 hne
    cases hcompare : compare (digitsValue n) (digitsValue m) with
    | eq => exact absurd hcompare hvalue
    | lt => rfl
    | gt => rfl

/-- Leading zeros do not make a number longer, whatever stands in front of it and behind it. -/
theorem compareNatural_total_zeros :
    IsNumeral "007".toList ∧ IsNumeral "10".toList ∧
      digitsValue "007".toList = 7 ∧ digitsValue "10".toList = 10 ∧
      compareNatural "a1b007é" "a1b10" = .lt ∧ compareNatural "a1b10" "a1b007é" = .gt := by
  have hn : IsNumeral "007".toList := ⟨by decide, by simp⟩
  have hm : IsNumeral "10".toList := ⟨by decide, by simp⟩
  have hless : compareNatural "a1b007é" "a1b10" = .lt :=
    compareNatural_total.2.2.2 "a1b".toList "007".toList "10".toList "é".toList [] (by simp) hn hm
      (by simp) (by simp) (by decide)
  refine ⟨hn, hm, by decide, by decide, hless, ?_⟩
  rw [compareNatural_total.2.1, hless]
  rfl

end TranslationAudit.Text
