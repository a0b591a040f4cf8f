import TranslationAudit.Project.Open
import TranslationAudit.Proofs.Collect.NodeType.Slices

/-! # The references that a run finds

A run stops at a file that cannot be cut up, so its references are those of files none of which is
such a one.

* `collectReferences`, `Project.referencesIn`: the references of a file where nothing fails.
* `Project.Legible`: files at which no run stops.
* `Project.Finds`, `Project.exists_of_references?`: the references that a run finds.
* `Project.isSome_references?_iff`: a run stops exactly if one of its files is not legible.
-/

namespace TranslationAudit

section MapM

variable {α β : Type} {f : α → Option β} {xs : List α} {ys : List β}

/-- What is found for each element of a list, if something is found for all of them. -/
theorem mapM_eq_some_iff : xs.mapM f = some ys ↔ xs.map f = ys.map some := by
  induction xs generalizing ys with
  | nil =>
    rw [List.mapM_nil, List.map_nil]
    exact ⟨fun h => by cases h; rfl, fun h => by rw [List.map_eq_nil_iff.1 h.symm]; rfl⟩
  | cons x xs ih =>
    rw [List.mapM_cons, List.map_cons]
    simp only [Option.bind_eq_bind, Option.bind_eq_some_iff, ih]
    constructor
    · rintro ⟨y, hy, ys, hys, h⟩
      cases h
      rw [hy, hys, List.map_cons]
    · intro h
      obtain ⟨y, ys, rfl, hy, hys⟩ := List.map_eq_cons_iff.1 h.symm
      exact ⟨y, hy.symm, ys, hys.symm, rfl⟩

theorem isSome_mapM_iff : (xs.mapM f).isSome = true ↔ ∀ x ∈ xs, (f x).isSome = true := by
  induction xs with
  | nil => exact iff_of_true rfl nofun
  | cons x xs ih =>
    rw [List.mapM_cons, List.forall_mem_cons, ← ih]
    cases f x with
    | none => exact iff_of_false nofun fun h => nomatch h.1
    | some y => cases xs.mapM f <;> simp

theorem eq_map_of_mapM {g : α → β} (hg : ∀ x y, f x = some y → y = g x)
    (h : xs.mapM f = some ys) : ys = xs.map g := by
  rw [mapM_eq_some_iff] at h
  have hmap : xs.map f = (xs.map g).map some := by
    rw [List.map_map]
    refine List.map_congr_left fun x hx => ?_
    have hmem : f x ∈ ys.map some := h ▸ List.mem_map_of_mem hx
    obtain ⟨y, -, hy⟩ := List.mem_map.1 hmem
    rw [← hy, hg x y hy.symm]
    rfl
  exact (List.map_inj_right fun _ _ => Option.some.inj).1 (h.symm.trans hmap)

end MapM

/-! ## The references of a text -/

/-- The references in the text of a file where nothing fails. -/
def collectReferences (format : SourceFormat) (file text : String) : List Reference :=
  match format with
  | .php => collectPhp file text
  | .fusion => collectFusion file text
  | .yaml => collectNodeTypes file text

variable {format : SourceFormat} {file text : String}

theorem eq_of_collectReferences? {found : List Reference}
    (h : collectReferences? format file text = some found) :
    found = collectReferences format file text := by
  cases format with
  | php => exact (Option.some.inj h).symm
  | fusion => exact (Option.some.inj h).symm
  | yaml => exact NodeType.eq_of_collectNodeTypes? h

theorem isSome_collectReferences?_iff :
    (collectReferences? format file text).isSome = true ↔
      (format = .yaml → ∀ line ∈ Text.lines text.toList, ¬NodeType.Fails line) := by
  cases format with
  | php => exact iff_of_true rfl nofun
  | fusion => exact iff_of_true rfl nofun
  | yaml => exact NodeType.isSome_collectNodeTypes?_iff.trans (by simp)

/-! ## The references of a file -/

namespace Project

variable {tree : FileTree} {p : Project}

/-- The references in a file where nothing fails. -/
def referencesIn (tree : FileTree) (file : String) : List Reference :=
  match sourceFormat? file, tree.read file with
  | some format, .ok text => collectReferences format file text
  | _, _ => []

theorem eq_of_referencesIn? {found : List Reference} (h : referencesIn? tree file = some found) :
    found = referencesIn tree file := by
  unfold referencesIn? at h
  unfold referencesIn
  cases hformat : sourceFormat? file with
  | none =>
    rw [hformat] at h
    exact (Option.some.inj h).symm
  | some format =>
    cases hread : tree.read file with
    | error cause =>
      rw [hformat, hread] at h
      exact (Option.some.inj h).symm
    | ok text =>
      rw [hformat, hread] at h
      exact eq_of_collectReferences? h

/-- Whether no run stops at a file: a node type file that can be read has no line of which the key
begins with a quote and ends in a character of more than one byte. -/
def Legible (tree : FileTree) (file : String) : Prop :=
  sourceFormat? file = some .yaml → ∀ text, tree.read file = .ok text →
    ∀ line ∈ Text.lines text.toList, ¬NodeType.Fails line

theorem isSome_referencesIn?_iff :
    (referencesIn? tree file).isSome = true ↔ Legible tree file := by
  unfold referencesIn? Legible
  cases sourceFormat? file with
  | none => exact iff_of_true rfl nofun
  | some format =>
    cases tree.read file with
    | error cause => exact iff_of_true rfl nofun
    | ok text => simpa using isSome_collectReferences?_iff

/-! ## The references of a run -/

/-- Whether a run finds a reference in a file. -/
def Finds (tree : FileTree) (file : String) (r : Reference) : Prop :=
  ∃ found ∈ referencesIn? tree file, r ∈ found

/-- The references of a run are those that it finds in its files. -/
theorem exists_of_references? {references : ReferenceIndex}
    (h : p.references? tree = some references) :
    ∃ rs, references = .ofReferences rs ∧
      ∀ r, r ∈ rs ↔ ∃ file ∈ p.sourceFiles, Finds tree file r := by
  obtain ⟨found, hfound, rfl⟩ := Option.map_eq_some_iff.1 h
  rw [mapM_eq_some_iff] at hfound
  refine ⟨found.flatten, rfl, fun r => ?_⟩
  have hmem (rs : List Reference) : rs ∈ found ↔
      ∃ file ∈ p.sourceFiles, referencesIn? tree file = some rs := by
    rw [← List.mem_map, hfound]
    simp
  simp only [List.mem_flatten, hmem, Finds, Option.mem_def]
  constructor
  · rintro ⟨rs, ⟨file, hfile, hrs⟩, hr⟩
    exact ⟨file, hfile, rs, hrs, hr⟩
  · rintro ⟨file, hfile, rs, hrs, hr⟩
    exact ⟨rs, ⟨file, hfile, hrs⟩, hr⟩

theorem isSome_references?_iff :
    (p.references? tree).isSome = true ↔ ∀ file ∈ p.sourceFiles, Legible tree file := by
  rw [references?, Option.isSome_map, isSome_mapM_iff]
  simp only [isSome_referencesIn?_iff]

end Project

end TranslationAudit
