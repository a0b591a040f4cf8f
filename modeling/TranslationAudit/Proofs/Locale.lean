import Mathlib.Data.List.Basic
import TranslationAudit.Locale
import TranslationAudit.Proofs.Text.Cut

/-! # Locale chains

* `mem_parents`, `pairwise_parents`, `isLocale_of_mem_parents`: cutting a locale at its joints gives
  every locale that it specialises, the longest first.
* `foldl_addFallback`: the fallbacks that are new stand behind them, each once.
* `IsChain`: the locales in which a text is looked for. `chain?_isChain`: each locale has them.
-/

namespace TranslationAudit.Locale

variable {s p : List Char} {fallbacks chain : List String} {locale : String}

/-! ## Parents -/

theorem mem_cuts : p ∈ cuts s ↔ ∃ u c, isJoint c = true ∧ s = u ++ c :: p.reverse := by
  induction s with
  | nil => simp [cuts]
  | cons d s ih =>
    have hlater : (∃ u c, isJoint c = true ∧ d :: s = u ++ c :: p.reverse) ↔
        (isJoint d = true ∧ p = s.reverse) ∨ p ∈ cuts s := by
      rw [ih]
      constructor
      · rintro ⟨u, c, hc, heq⟩
        cases u with
        | nil =>
          obtain ⟨rfl, rfl⟩ := List.cons_eq_cons.1 heq
          exact .inl ⟨hc, by simp⟩
        | cons e u => exact .inr ⟨u, c, hc, (List.cons_eq_cons.1 heq).2⟩
      · rintro (⟨hd, rfl⟩ | ⟨u, c, hc, rfl⟩)
        · exact ⟨[], d, hd, by simp⟩
        · exact ⟨d :: u, c, hc, rfl⟩
    rw [hlater, cuts]
    split
    · next hd => simp [hd]
    · next hd => simp [hd]

/-- The parents are the texts that end right before a joint. -/
theorem mem_parents : p ∈ parents s ↔ ∃ c r, isJoint c = true ∧ s = p ++ c :: r := by
  rw [parents, mem_cuts]
  constructor
  · rintro ⟨u, c, hc, heq⟩
    exact ⟨c, u.reverse, hc, by rw [← List.reverse_reverse s, heq]; simp⟩
  · rintro ⟨c, r, hc, rfl⟩
    exact ⟨r.reverse, c, hc, by simp⟩

theorem length_lt_of_mem_cuts (h : p ∈ cuts s) : p.length < s.length := by
  obtain ⟨u, c, -, rfl⟩ := mem_cuts.1 h
  rw [List.length_append, List.length_cons, List.length_reverse]
  omega

theorem length_lt_of_mem_parents (h : p ∈ parents s) : p.length < s.length := by
  have hlt := length_lt_of_mem_cuts h
  rwa [List.length_reverse] at hlt

theorem pairwise_cuts (s : List Char) : (cuts s).Pairwise fun p q => q.length < p.length := by
  induction s with
  | nil => exact List.Pairwise.nil
  | cons c s ih =>
    rw [cuts]
    split
    · refine List.pairwise_cons.2 ⟨fun p hp => ?_, ih⟩
      rw [List.length_reverse]
      exact length_lt_of_mem_cuts hp
    · exact ih

/-- The longest parent comes first. -/
theorem pairwise_parents (s : List Char) :
    (parents s).Pairwise fun p q => q.length < p.length := pairwise_cuts s.reverse

/-- A parent of a locale is a locale. -/
theorem isLocale_of_mem_parents (hlocale : isLocale locale = true)
    (hp : p ∈ parents locale.toList) : isLocale (String.ofList p) = true := by
  obtain ⟨c, r, hc, heq⟩ := mem_parents.1 hp
  obtain ⟨language, subtags, hsplit⟩ :=
    List.exists_cons_of_ne_nil (Text.split_ne_nil isJoint p)
  have hwhole : Text.split isJoint locale.toList =
      language :: (subtags ++ Text.split isJoint r) := by
    rw [heq, Text.split_append_cons hc, hsplit, List.cons_append]
  simp only [isLocale, hwhole, Bool.and_eq_true, List.all_append] at hlocale
  simp only [isLocale, String.toList_ofList, hsplit, hlocale, Bool.and_self]

/-! ## Fallbacks -/

/-- The fallbacks that are new are put behind the list, each once. -/
theorem foldl_addFallback (fallbacks locales : List String) :
    fallbacks.foldl addFallback locales =
      locales ++ (fallbacks.filter (· ∉ locales)).eraseDups := by
  induction fallbacks generalizing locales with
  | nil => simp
  | cons fallback fallbacks ih =>
    rw [List.foldl_cons, ih, addFallback]
    split
    · next hknown => simp [hknown]
    · next hnew =>
      have hothers : (fallbacks.filter (· ∉ locales)).filter (fun other => !other == fallback) =
          fallbacks.filter (· ∉ locales ++ [fallback]) := by
        rw [List.filter_filter]
        refine List.filter_congr fun other _ => ?_
        by_cases hother : other = fallback <;> simp [hother]
      rw [List.filter_cons_of_pos (by simpa using hnew), List.eraseDups_cons, hothers,
        List.append_assoc]
      rfl

theorem nodup_foldl_addFallback (fallbacks : List String) {locales : List String}
    (h : locales.Nodup) : (fallbacks.foldl addFallback locales).Nodup := by
  refine List.foldlRecOn (motive := List.Nodup) fallbacks addFallback h ?_
  intro locales hlocales fallback _
  rw [addFallback]
  split
  · exact hlocales
  · next hnew =>
    rw [List.nodup_append]
    refine ⟨hlocales, by simp, ?_⟩
    rintro known hknown _ hmem rfl
    exact hnew (List.mem_singleton.1 hmem ▸ hknown)

/-! ## Chains -/

/-- The locales in which the texts of a locale are looked for: the locale itself, what stands right
before one of its joints, the longest first, and the fallbacks that are new. -/
structure IsChain (fallbacks : List String) (locale : String) (chain : List String) : Prop where
  parts : ∃ parents : List String,
    (∀ p, p ∈ parents ↔ ∃ c r, (c = '_' ∨ c = '-') ∧ locale.toList = p.toList ++ c :: r) ∧
    parents.Pairwise (fun p q => q.length < p.length) ∧
    (∀ p ∈ parents, isLocale p = true) ∧
    chain = locale :: parents ++ (fallbacks.filter (· ∉ locale :: parents)).eraseDups
  nodup : chain.Nodup

theorem chain?_isChain (fallbacks : List String) (h : isLocale locale = true) :
    ∃ chain, chain? fallbacks locale = some chain ∧ IsChain fallbacks locale chain := by
  refine ⟨_, if_pos h, ⟨(parents locale.toList).map String.ofList, ?_, ?_, ?_,
    foldl_addFallback _ _⟩, ?_⟩
  · intro p
    rw [Text.mem_map_ofList, mem_parents]
    simp [isJoint]
  · rw [List.pairwise_map]
    exact (pairwise_parents _).imp fun hlt => by simpa using hlt
  · intro p hp
    rw [← String.ofList_toList (s := p)]
    exact isLocale_of_mem_parents h (Text.mem_map_ofList.1 hp)
  · refine nodup_foldl_addFallback fallbacks (List.nodup_cons.2 ⟨?_, ?_⟩)
    · exact fun hmem =>
        Nat.lt_irrefl _ (length_lt_of_mem_parents (Text.mem_map_ofList.1 hmem))
    · rw [List.Nodup, List.pairwise_map]
      refine (pairwise_parents _).imp fun hlt heq => ?_
      rw [String.ofList_injective heq] at hlt
      exact Nat.lt_irrefl _ hlt

end TranslationAudit.Locale
