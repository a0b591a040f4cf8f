import TranslationAudit.Proofs.Text.Ascii
import TranslationAudit.Text.Natural

/-! # Natural order as an order of tokens

A label is a list of tokens, digit runs and single characters, and natural order is the
lexicographic order of these lists with plain order behind it. All laws follow from this.

* `SortToken`, `sortTokens`: the tokens of a label and their order.
* `compareFolded_eq`: natural order up to case and leading zeros compares tokens.
* `sortNatural_sortNatural`, `sortNatural_eq_of_perm`: what has been sorted stays as it is, and
  labels that differ leave only one order.
-/

namespace TranslationAudit.Text

/-! ## Tokens -/

/-- A digit run or a character. All digit runs are alike in `lowered`, so that characters compare
with each of them as with a digit. -/
structure SortToken where
  lowered : List Char
  size : Nat
  digits : List Char

namespace SortToken

instance : Ord SortToken where
  compare := compareLex (compareOn lowered) (compareLex (compareOn size) (compareOn digits))

instance : Std.TransOrd SortToken :=
  inferInstanceAs (Std.TransCmp (compareLex (compareOn lowered)
    (compareLex (compareOn size) (compareOn digits))))

theorem compare_eq (a b : SortToken) :
    compare a b = (compare a.lowered b.lowered).then
      ((compare a.size b.size).then (compare a.digits b.digits)) := rfl

/-- A run of digits without its leading zeros. -/
def ofDigits (run : List Char) : SortToken :=
  let digits := run.dropWhile (· = '0')
  ⟨['0'], digits.length, digits⟩

def ofChar (c : Char) : SortToken := ⟨lowercase c, 0, []⟩

end SortToken

/-- The tokens of a text. -/
def sortTokens (s : List Char) : List SortToken :=
  match s with
  | [] => []
  | c :: r =>
    if c.isDigit then
      .ofDigits ((c :: r).takeWhile Char.isDigit) :: sortTokens (r.dropWhile Char.isDigit)
    else .ofChar c :: sortTokens r
termination_by s.length
decreasing_by
  · have hle := (List.dropWhile_suffix (l := r) Char.isDigit).length_le
    simp only [List.length_cons]
    omega
  · simp

/-! ## Digits and other characters -/

theorem isDigit_iff {c : Char} : c.isDigit = true ↔ 48 ≤ c.toNat ∧ c.toNat ≤ 57 := by
  simp only [Char.isDigit, Bool.and_eq_true, decide_eq_true_eq, UInt32.le_iff_toNat_le, ge_iff_le]
  exact Iff.rfl

theorem isDigit_eq_false_iff {c : Char} :
    c.isDigit = false ↔ c.toNat < 48 ∨ 57 < c.toNat := by
  rw [← Bool.not_eq_true, isDigit_iff]
  omega

theorem lowercase_of_lt {c : Char} (h : c.toNat < 0x80) : lowercase c = [c.toLower] := by
  simp [lowercase, h]

theorem lowercase_of_isDigit {c : Char} (h : c.isDigit = true) : lowercase c = [c] := by
  have hlt : c.toNat < 0x80 := by
    have := isDigit_iff.1 h
    omega
  rw [lowercase_of_lt hlt, toLower_of_isDigit hlt h]

theorem caseBlocks_beyond_digits : ∀ b ∈ caseBlocks, 57 < b.first + b.distance := by
  decide +kernel

theorem isDigit_ofNat_eq_false {n : Nat} (h : 57 < n) : (Char.ofNat n).isDigit = false := by
  apply isDigit_eq_false_iff.2
  by_cases hv : n.isValidChar
  · right
    rw [Char.ofNat, dif_pos hv]
    exact h
  · left
    rw [Char.ofNat, dif_neg hv]
    decide

/-- The lower case form of a character other than a digit does not begin with a digit. -/
theorem exists_cons_lowercase {c : Char} (h : c.isDigit = false) :
    ∃ d t, lowercase c = d :: t ∧ d.isDigit = false := by
  by_cases hlt : c.toNat < 0x80
  · exact ⟨c.toLower, [], lowercase_of_lt hlt, isDigit_toLower hlt h⟩
  · by_cases hdot : c.toNat = 0x130
    · exact ⟨'i', [Char.ofNat 0x307], by simp [lowercase, hdot], by decide⟩
    · cases hfind : caseBlocks.find? (·.contains c.toNat) with
      | none => exact ⟨c, [], by simp [lowercase, hlt, hdot, hfind], h⟩
      | some b =>
        refine ⟨Char.ofNat (c.toNat + b.distance).toNat, [],
          by simp [lowercase, hlt, hdot, hfind], isDigit_ofNat_eq_false ?_⟩
        have hfar := caseBlocks_beyond_digits b (List.mem_of_find?_eq_some hfind)
        have hin := List.find?_some hfind
        simp only [CaseBlock.contains, Bool.and_eq_true, decide_eq_true_eq] at hin
        omega

theorem compare_digit {a b d : Char} (ha : a.isDigit = true) (hb : b.isDigit = true)
    (hd : d.isDigit = false) : compare a d = compare b d ∧ compare a d ≠ .eq := by
  have less {x y : Char} (h : x.toNat < y.toNat) : compare x y = .lt := by
    have hlt : x < y := h
    change compareOfLessAndEq x y = .lt
    simp [compareOfLessAndEq, hlt]
  have greater {x y : Char} (h : y.toNat < x.toNat) : compare x y = .gt := by
    rw [Std.OrientedOrd.eq_swap, less h]
    rfl
  have ha' := isDigit_iff.1 ha
  have hb' := isDigit_iff.1 hb
  rcases isDigit_eq_false_iff.1 hd with h | h
  · rw [greater (x := a) (y := d) (by omega), greater (x := b) (y := d) (by omega)]
    simp
  · rw [less (x := a) (y := d) (by omega), less (x := b) (y := d) (by omega)]
    simp

/-! ## Natural order compares tokens -/

namespace SortToken

theorem compare_ofDigits (a b : List Char) :
    compare (ofDigits a) (ofDigits b) = compareNumerals a b := by
  rw [compare_eq]
  rfl

theorem compare_ofChar (a b : Char) :
    compare (ofChar a) (ofChar b) = compare (lowercase a) (lowercase b) := by
  rw [compare_eq]
  change (compare (lowercase a) (lowercase b)).then .eq = _
  cases compare (lowercase a) (lowercase b) <;> rfl

theorem compare_ofDigits_ofChar {a b : Char} (ha : a.isDigit = true) (hb : b.isDigit = false)
    (run : List Char) :
    compare (ofDigits run) (ofChar b) = compare (lowercase a) (lowercase b) ∧
      compare (lowercase a) (lowercase b) ≠ .eq := by
  obtain ⟨d, t, hlower, hd⟩ := exists_cons_lowercase hb
  obtain ⟨hsame, hne⟩ := compare_digit (a := '0') (b := a) (by decide) ha hd
  have hcompare (x : Char) : compare [x] (d :: t) = (compare x d).then (compare [] t) :=
    List.compareLex_cons_cons
  rw [compare_eq, lowercase_of_isDigit ha, hlower, hcompare a]
  change (compare ['0'] (lowercase b)).then _ = _ ∧ _
  rw [hlower, hcompare '0', hsame]
  rw [hsame] at hne
  cases h : compare a d with
  | lt => exact ⟨rfl, by simp⟩
  | eq => exact absurd h hne
  | gt => exact ⟨rfl, by simp⟩

end SortToken

theorem sortTokens_digit {c : Char} (h : c.isDigit = true) (r : List Char) :
    sortTokens (c :: r) =
      .ofDigits ((c :: r).takeWhile Char.isDigit) :: sortTokens (r.dropWhile Char.isDigit) := by
  rw [sortTokens, if_pos h]

theorem sortTokens_char {c : Char} (h : c.isDigit = false) (r : List Char) :
    sortTokens (c :: r) = .ofChar c :: sortTokens r := by
  rw [sortTokens, if_neg (by simp [h])]

theorem compare_cons (a b : SortToken) (as bs : List SortToken) :
    compare (a :: as) (b :: bs) = (compare a b).then (compare as bs) :=
  List.compareLex_cons_cons

theorem then_of_ne_eq {o p : Ordering} (h : o ≠ .eq) (q : Ordering) : o.then p = o.then q := by
  cases o with
  | eq => exact absurd rfl h
  | _ => rfl

/-- Natural order up to case and leading zeros is the order of the tokens. -/
theorem compareFolded_eq (a b : List Char) :
    compareFolded a b = compare (sortTokens a) (sortTokens b) := by
  fun_induction compareFolded a b with
  | case1 => simp [sortTokens]
  | case2 b bs =>
    cases hb : b.isDigit with
    | true => rw [sortTokens_digit hb, sortTokens]; rfl
    | false => rw [sortTokens_char hb, sortTokens]; rfl
  | case3 a as =>
    cases ha : a.isDigit with
    | true => rw [sortTokens_digit ha, sortTokens]; rfl
    | false => rw [sortTokens_char ha, sortTokens]; rfl
  | case4 a as b bs hdigits ih =>
    rw [Bool.and_eq_true] at hdigits
    rw [sortTokens_digit hdigits.1, sortTokens_digit hdigits.2, compare_cons,
      SortToken.compare_ofDigits, ih]
  -- against another character, a number counts by its first digit
  | case5 a as b bs hdigits ih =>
    rw [Bool.and_eq_true, not_and] at hdigits
    cases ha : a.isDigit with
    | true =>
      have hb : b.isDigit = false := by simpa using hdigits ha
      obtain ⟨hsame, hne⟩ := SortToken.compare_ofDigits_ofChar ha hb
        ((a :: as).takeWhile Char.isDigit)
      rw [sortTokens_digit ha, sortTokens_char hb, compare_cons, hsame]
      exact then_of_ne_eq hne _
    | false =>
      cases hb : b.isDigit with
      | true =>
        obtain ⟨hsame, hne⟩ := SortToken.compare_ofDigits_ofChar hb ha
          ((b :: bs).takeWhile Char.isDigit)
        rw [sortTokens_char ha, sortTokens_digit hb, compare_cons,
          Std.OrientedOrd.eq_swap (a := SortToken.ofChar a), hsame,
          Std.OrientedOrd.eq_swap (a := lowercase a)]
        refine then_of_ne_eq ?_ _
        cases hc : compare (lowercase b) (lowercase a) with
        | eq => exact absurd hc hne
        | _ => simp
      | false =>
        rw [sortTokens_char ha, sortTokens_char hb, compare_cons, SortToken.compare_ofChar, ih]

/-! ## Laws of natural order -/

theorem compareNatural_eq (a b : String) :
    compareNatural a b =
      compareLex (compareOn fun s : String => sortTokens s.toList) compare a b := by
  rw [compareNatural, compareFolded_eq]
  rfl

instance : Std.TransCmp compareNatural := by
  have heq : compareNatural =
      compareLex (compareOn fun s : String => sortTokens s.toList) compare := by
    funext a b
    exact compareNatural_eq a b
  rw [heq]
  infer_instance

/-- Only equal texts compare as equal. -/
instance : Std.LawfulEqCmp compareNatural where
  eq_of_compare {a b} h := by
    rw [compareNatural, Ordering.then_eq_eq] at h
    exact Std.LawfulEqOrd.eq_of_compare h.2

/-! ## Sorting by labels -/

section Sorting

variable {α : Type} (label : α → String)

/-- Natural order of values by their labels, as sorting uses it. -/
def labelLE (a b : α) : Bool := compareNatural (label a) (label b) != .gt

theorem labelLE_iff (a b : α) :
    labelLE label a b = true ↔ (compareNatural (label a) (label b)).isLE = true := by
  rw [labelLE]
  cases compareNatural (label a) (label b) <;> decide

theorem labelLE_trans (a b c : α) (hab : labelLE label a b = true)
    (hbc : labelLE label b c = true) : labelLE label a c = true := by
  rw [labelLE_iff] at *
  exact Std.TransCmp.isLE_trans hab hbc

theorem labelLE_total (a b : α) : (labelLE label a b || labelLE label b a) = true := by
  have hswap : compareNatural (label b) (label a) = (compareNatural (label a) (label b)).swap :=
    Std.OrientedCmp.eq_swap
  rw [labelLE, labelLE, hswap]
  cases compareNatural (label a) (label b) <;> decide

theorem label_eq_of_labelLE {a b : α} (hab : labelLE label a b = true)
    (hba : labelLE label b a = true) : label a = label b := by
  rw [labelLE_iff] at *
  have heq : compareNatural (label a) (label b) = .eq := Std.OrientedCmp.isLE_antisymm hab hba
  exact Std.LawfulEqCmp.eq_of_compare heq

theorem sortNatural_eq (xs : List α) : sortNatural label xs = xs.mergeSort (labelLE label) := rfl

theorem sortNatural_perm (xs : List α) : (sortNatural label xs).Perm xs :=
  List.mergeSort_perm xs _

theorem pairwise_sortNatural (xs : List α) :
    (sortNatural label xs).Pairwise fun a b => labelLE label a b = true :=
  List.pairwise_mergeSort (labelLE_trans label) (labelLE_total label) xs

@[simp] theorem sortNatural_sortNatural (xs : List α) :
    sortNatural label (sortNatural label xs) = sortNatural label xs :=
  List.mergeSort_of_pairwise (pairwise_sortNatural label xs)

/-- A change that keeps the labels keeps the order. -/
theorem sortNatural_map {β : Type} {label' : β → String} {f : α → β}
    (h : ∀ x, label' (f x) = label x) (xs : List α) :
    sortNatural label' (xs.map f) = (sortNatural label xs).map f := by
  rw [sortNatural_eq, sortNatural_eq]
  refine (List.map_mergeSort ?_).symm
  intro a _ b _
  rw [labelLE, labelLE, h, h]

/-- Values with labels of their own have one order only. -/
theorem sortNatural_eq_of_perm {xs ys : List α} (h : xs.Perm ys)
    (apart : ∀ a ∈ xs, ∀ b ∈ xs, label a = label b → a = b) :
    sortNatural label xs = sortNatural label ys := by
  have hxs := sortNatural_perm label xs
  have hys := sortNatural_perm label ys
  refine List.Perm.eq_of_pairwise ?_ (pairwise_sortNatural label xs)
    (pairwise_sortNatural label ys) (hxs.trans (h.trans hys.symm))
  intro a b ha hb hab hba
  have hbxs : b ∈ xs := h.mem_iff.2 (hys.mem_iff.1 hb)
  exact apart a (hxs.mem_iff.1 ha) b hbxs (label_eq_of_labelLE label hab hba)

/-- Of values with labels of their own some are sorted as they stand among all. -/
theorem sortNatural_filter {xs : List α}
    (apart : ∀ a ∈ xs, ∀ b ∈ xs, label a = label b → a = b) (p : α → Bool) :
    sortNatural label (xs.filter p) = (sortNatural label xs).filter p := by
  have hperm : (xs.filter p).Perm ((sortNatural label xs).filter p) :=
    (sortNatural_perm label xs).symm.filter p
  have hsorted : sortNatural label ((sortNatural label xs).filter p) =
      (sortNatural label xs).filter p :=
    List.mergeSort_of_pairwise ((pairwise_sortNatural label xs).filter p)
  rw [← hsorted]
  refine sortNatural_eq_of_perm label hperm ?_
  intro a ha b hb
  exact apart a (List.mem_filter.1 ha).1 b (List.mem_filter.1 hb).1

end Sorting

end TranslationAudit.Text
