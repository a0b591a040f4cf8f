import TranslationAudit.Markup.Node

/-! # Names in markup

Reading takes for a name whatever stands before a blank or an equals sign. The names that markup
means are narrower.

* `isName`: the names of elements and attributes after the XML recommendation.
* `AttributesNamed`: attributes with names, no two of them the same.
* `not_mem_of_isName`: the characters that have a meaning in tags are in no name.
-/

namespace TranslationAudit.Markup

/-- The characters with which a name can begin. -/
def isNameStart (c : Char) : Bool :=
  let n := c.toNat
  c == ':' || c == '_' || (0x41 ≤ n && n ≤ 0x5A) || (0x61 ≤ n && n ≤ 0x7A) ||
    (0xC0 ≤ n && n ≤ 0xD6) || (0xD8 ≤ n && n ≤ 0xF6) || (0xF8 ≤ n && n ≤ 0x2FF) ||
    (0x370 ≤ n && n ≤ 0x37D) || (0x37F ≤ n && n ≤ 0x1FFF) || (0x200C ≤ n && n ≤ 0x200D) ||
    (0x2070 ≤ n && n ≤ 0x218F) || (0x2C00 ≤ n && n ≤ 0x2FEF) || (0x3001 ≤ n && n ≤ 0xD7FF) ||
    (0xF900 ≤ n && n ≤ 0xFDCF) || (0xFDF0 ≤ n && n ≤ 0xFFFD) || (0x10000 ≤ n && n ≤ 0xEFFFF)

/-- The characters with which a name can go on. -/
def isNameChar (c : Char) : Bool :=
  let n := c.toNat
  isNameStart c || c == '-' || c == '.' || (0x30 ≤ n && n ≤ 0x39) || n == 0xB7 ||
    (0x300 ≤ n && n ≤ 0x36F) || (0x203F ≤ n && n ≤ 0x2040)

/-- The names of elements and attributes. -/
def isName (s : String) : Bool :=
  match s.toList with
  | [] => false
  | c :: r => isNameStart c && r.all isNameChar

/-- Attributes with names, each name once. -/
structure AttributesNamed (attributes : List (String × String)) : Prop where
  names : ∀ a ∈ attributes, isName a.1 = true
  nodup : (attributes.map Prod.fst).Nodup

/-! ## What is in no name -/

/-- The characters that have a meaning in tags. -/
def tagMarks : List Char := [' ', '\t', '\n', '\r', '=', '>', '/', '"', '\'', '<', '!', '?']

theorem isNameChar_of_isNameStart {c : Char} (h : isNameStart c = true) : isNameChar c = true := by
  simp [isNameChar, h]

theorem not_isNameChar_of_mem_tagMarks : ∀ c ∈ tagMarks, isNameChar c = false := by
  have hall : tagMarks.all (fun c => !isNameChar c) = true := by decide
  intro c hc
  simpa using List.all_eq_true.1 hall c hc

theorem isNameChar_of_isName {s : String} (h : isName s = true) :
    ∀ c ∈ s.toList, isNameChar c = true := by
  unfold isName at h
  split at h
  · simp at h
  · next c r hs =>
    rw [Bool.and_eq_true, List.all_eq_true] at h
    intro d hd
    rw [hs, List.mem_cons] at hd
    rcases hd with rfl | hd
    · exact isNameChar_of_isNameStart h.1
    · exact h.2 d hd

theorem not_mem_of_isName {s : String} (h : isName s = true) {c : Char} (hc : c ∈ tagMarks) :
    c ∉ s.toList := by
  intro hm
  have hn := isNameChar_of_isName h c hm
  rw [not_isNameChar_of_mem_tagMarks c hc] at hn
  exact absurd hn (by simp)

theorem ne_of_isName {s : String} (h : isName s = true) {c d : Char} (hc : c ∈ s.toList)
    (hd : d ∈ tagMarks) : c ≠ d := by
  rintro rfl
  exact not_mem_of_isName h hd hc

theorem toList_ne_nil_of_isName {s : String} (h : isName s = true) : s.toList ≠ [] := by
  intro hs
  simp [isName, hs] at h

/-! ## Attributes by name -/

namespace AttributesNamed

theorem nil : AttributesNamed [] := ⟨by simp, by simp⟩

theorem of_perm {as bs : List (String × String)} (h : AttributesNamed as) (p : as.Perm bs) :
    AttributesNamed bs :=
  ⟨fun a ha => h.names a (p.mem_iff.2 ha), (p.map Prod.fst).nodup_iff.1 h.nodup⟩

theorem of_sublist {as bs : List (String × String)} (h : AttributesNamed as)
    (s : bs.Sublist as) : AttributesNamed bs :=
  ⟨fun a ha => h.names a (s.subset ha), (s.map Prod.fst).nodup h.nodup⟩

theorem filter {as : List (String × String)} (h : AttributesNamed as)
    (p : String × String → Bool) : AttributesNamed (as.filter p) :=
  h.of_sublist List.filter_sublist

theorem append {as bs : List (String × String)} (ha : AttributesNamed as)
    (hb : AttributesNamed bs) (h : ∀ a ∈ as, ∀ b ∈ bs, a.1 ≠ b.1) : AttributesNamed (as ++ bs) where
  names a hm := (List.mem_append.1 hm).elim (ha.names a) (hb.names a)
  nodup := by
    rw [List.map_append, List.nodup_append]
    refine ⟨ha.nodup, hb.nodup, ?_⟩
    intro x hx y hy
    obtain ⟨a, hma, rfl⟩ := List.mem_map.1 hx
    obtain ⟨b, hmb, rfl⟩ := List.mem_map.1 hy
    exact h a hma b hmb

end AttributesNamed

end TranslationAudit.Markup
