import TranslationAudit.Message.Resolve
import TranslationAudit.Proofs.Text.Strip

/-! # Names of sources

* `IsSourceName`: the names that sources have once they are folded.
* `isSourceName_foldSource`, `isSourceName_normalizeSource`: folding makes such names.
* `IsSourceName.foldSource_self`, `IsSourceName.foldSource_slashes`: such a name is what it and its
  path are folded to.
-/

namespace TranslationAudit

/-- A name that folding leaves alone: it has no slashes of either kind, and no dot at its ends. -/
structure IsSourceName (s : String) : Prop where
  nonempty : s ≠ ""
  slash : '/' ∉ s.toList
  backslash : '\\' ∉ s.toList
  first : s.toList.head? ≠ some '.'
  last : s.toList.getLast? ≠ some '.'

theorem isSourceName_foldSource (path : String) : IsSourceName (foldSource path) := by
  generalize hfolded : path.toList.map (fun c => if c = '\\' ∨ c = '/' then '.' else c) = folded
  have hfree : ∀ c ∈ folded, c ≠ '/' ∧ c ≠ '\\' := by
    rw [← hfolded]
    intro c hc
    obtain ⟨d, -, rfl⟩ := List.mem_map.1 hc
    split
    · decide
    · next hd =>
      rw [not_or] at hd
      exact hd.symm
  unfold foldSource
  rw [hfolded]
  dsimp only
  split
  · exact ⟨by decide, by decide, by decide, by decide, by decide⟩
  · next hne =>
    have hmem : ∀ c ∈ Text.stripWhile (· = '.') folded, c ∈ folded :=
      (Text.stripWhile_isInfix _ _).subset
    refine ⟨?_, ?_, ?_, ?_, ?_⟩
    · intro hempty
      rw [String.ofList_eq_empty_iff] at hempty
      simp [hempty] at hne
    · rw [String.toList_ofList]
      exact fun hc => (hfree _ (hmem _ hc)).1 rfl
    · rw [String.toList_ofList]
      exact fun hc => (hfree _ (hmem _ hc)).2 rfl
    · rw [String.toList_ofList]
      intro hhead
      simpa using Text.of_head?_stripWhile hhead
    · rw [String.toList_ofList]
      intro hlast
      simpa using Text.of_getLast?_stripWhile hlast

theorem isSourceName_normalizeSource (source : Option String) :
    IsSourceName (normalizeSource source) := by
  have hdefault : IsSourceName Key.defaultSource :=
    ⟨by decide, by decide, by decide, by decide, by decide⟩
  cases source with
  | none => exact hdefault
  | some source =>
    unfold normalizeSource
    dsimp only
    split
    · exact hdefault
    · exact isSourceName_foldSource _

/-- A path whose slashes make such a name is folded to it. -/
theorem IsSourceName.foldSource_eq {s path : String} (h : IsSourceName s)
    (hpath : path.toList.map (fun c => if c = '\\' ∨ c = '/' then '.' else c) = s.toList) :
    foldSource path = s := by
  have hstrip : Text.stripWhile (· = '.') s.toList = s.toList := by
    apply Text.stripWhile_of_ends
    · intro c hc
      have hne : c ≠ '.' := fun heq => h.first (heq ▸ hc)
      simpa using hne
    · intro c hc
      have hne : c ≠ '.' := fun heq => h.last (heq ▸ hc)
      simpa using hne
  have hne : s.toList.isEmpty = false := by simpa using h.nonempty
  rw [foldSource, hpath, hstrip]
  simp [hne]

theorem IsSourceName.ne_slash {s : String} (h : IsSourceName s) {c : Char} (hc : c ∈ s.toList) :
    c ≠ '/' ∧ c ≠ '\\' :=
  ⟨fun heq => h.slash (heq ▸ hc), fun heq => h.backslash (heq ▸ hc)⟩

theorem IsSourceName.foldSource_self {s : String} (h : IsSourceName s) : foldSource s = s := by
  apply h.foldSource_eq
  refine (List.map_congr_left ?_).trans (List.map_id _)
  intro c hc
  obtain ⟨hslash, hbackslash⟩ := h.ne_slash hc
  simp [hslash, hbackslash]

/-- The path that a name stands for is folded to the name again. -/
theorem IsSourceName.foldSource_slashes {s : String} (h : IsSourceName s) :
    foldSource (String.ofList (s.toList.map fun c => if c = '.' then '/' else c)) = s := by
  apply h.foldSource_eq
  rw [String.toList_ofList, List.map_map]
  refine (List.map_congr_left ?_).trans (List.map_id _)
  intro c hc
  obtain ⟨hslash, hbackslash⟩ := h.ne_slash hc
  by_cases hdot : c = '.'
  · simp [hdot]
  · simp [hdot, hslash, hbackslash]

end TranslationAudit
