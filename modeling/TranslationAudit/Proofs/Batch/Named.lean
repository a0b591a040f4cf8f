import TranslationAudit.Proofs.Batch
import TranslationAudit.Proofs.Path.Parent
import TranslationAudit.Proofs.Reconcile

/-! # Where new catalogs are made

* `Catalog.Location.IsNamed`: locations whose parts are names.
* `Catalog.Location.catalogPath_eq`: the names on the path of a catalog within its package.
* `Catalog.Location.names_eq_of_behind`: no catalog lies behind another one of its package.
* `Batch.Named`: runs that add to known catalogs, and to new ones at named locations.
* `Batch.Named.separate`: the catalogs of such a run do not get into each other's way.
-/

namespace TranslationAudit

namespace Text

/-- Whether a character stands between the pieces of a source. -/
def isDivider (c : Char) : Bool := c = '.' || c = '/'

/-- A text with slashes for dots is made of the pieces between dots and slashes. -/
theorem map_divider_eq (s : List Char) :
    s.map (fun c => if c = '.' then '/' else c) = ['/'].intercalate (split isDivider s) := by
  induction s with
  | nil => rfl
  | cons c s ih =>
    obtain ⟨piece, rest, hsplit⟩ := List.exists_cons_of_ne_nil (split_ne_nil isDivider s)
    rw [List.map_cons, ih, split]
    by_cases hc : isDivider c = true
    · have hslash : (if c = '.' then '/' else c) = '/' := by
        rcases Bool.or_eq_true_iff.1 hc with hc | hc <;> simp [of_decide_eq_true hc]
      rw [if_pos hc, hslash, hsplit, List.intercalate_cons_cons]
      rfl
    · have hkeep : (if c = '.' then '/' else c) = c := by
        rw [isDivider, Bool.or_eq_true_iff, not_or] at hc
        exact if_neg fun heq => hc.1 (decide_eq_true heq)
      rw [if_neg hc, hkeep, hsplit]
      cases rest with
      | nil => rfl
      | cons next rest => simp [List.intercalate_cons_cons]

theorem intercalate_concat_append (separator : List Char) (pieces : List (List Char))
    (piece ending : List Char) :
    separator.intercalate (pieces ++ [piece]) ++ ending =
      separator.intercalate (pieces ++ [piece ++ ending]) := by
  induction pieces with
  | nil => simp
  | cons first pieces ih =>
    obtain ⟨next, rest, hrest⟩ : ∃ next rest, pieces ++ [piece] = next :: rest :=
      List.exists_cons_of_ne_nil (by simp)
    obtain ⟨next', rest', hrest'⟩ : ∃ next rest, pieces ++ [piece ++ ending] = next :: rest :=
      List.exists_cons_of_ne_nil (by simp)
    rw [List.cons_append, List.cons_append, hrest, hrest', List.intercalate_cons_cons,
      List.intercalate_cons_cons, ← hrest, ← hrest', ← ih, List.append_assoc, List.append_assoc]

end Text

theorem FileTree.goal_join {t : FileTree} {p : String} (hp : Path.IsOpen p) {place : List String}
    (hgoal : t.goal p = some place) {names : List String} (h : ∀ s ∈ names, Path.IsName s)
    (hne : names ≠ []) : t.goal (Path.join p ("/".intercalate names)) = some (place ++ names) := by
  have hnames (names here : List String) :
      (names.map Path.Component.name).foldlM t.reach here = some (here ++ names) := by
    induction names generalizing here with
    | nil => simp
    | cons s names ih =>
      rw [List.map_cons, List.foldlM_cons]
      simpa [FileTree.reach] using ih (here ++ [s])
  unfold FileTree.goal at hgoal ⊢
  rw [Path.components_join hp h hne, List.foldlM_append, hgoal]
  exact hnames names place

namespace Catalog

namespace Location

/-- The pieces of a source between its dots and slashes. -/
def pieces (l : Location) : List String :=
  (Text.split Text.isDivider l.source.toList).map String.ofList

/-- Locations whose parts are names. -/
structure IsNamed (l : Location) : Prop where
  package : Path.IsName l.package
  locale : Path.IsName l.locale
  source : ∀ piece ∈ l.pieces, Path.IsName piece

instance (l : Location) : Decidable l.IsNamed :=
  decidable_of_iff
    (Path.IsName l.package ∧ Path.IsName l.locale ∧ ∀ piece ∈ l.pieces, Path.IsName piece)
    ⟨fun ⟨hpackage, hlocale, hsource⟩ => ⟨hpackage, hlocale, hsource⟩,
      fun h => ⟨h.package, h.locale, h.source⟩⟩

/-- The name of the file of a catalog. -/
def fileName (l : Location) : String := l.pieces.getLastD "" ++ ".xlf"

/-- The names on the path of a catalog within its package. -/
def names (l : Location) : List String :=
  ["Resources", "Private", "Translations", l.locale] ++ (l.pieces.dropLast ++ [l.fileName])

variable {l l' : Location}

theorem pieces_eq (l : Location) : l.pieces = l.pieces.dropLast ++ [l.pieces.getLastD ""] := by
  have hne : l.pieces ≠ [] := by simp [pieces, Text.split_ne_nil]
  rw [List.getLastD_eq_getLast?, List.getLast?_eq_some_getLast hne, Option.getD_some]
  exact (List.dropLast_concat_getLast hne).symm

theorem dot_not_mem_of_mem_pieces {piece : String} (h : piece ∈ l.pieces) :
    '.' ∉ piece.toList := by
  obtain ⟨s, hs, rfl⟩ := List.mem_map.1 h
  intro hdot
  have hfree := Text.split_free hs '.' (by simpa using hdot)
  cases hfree

theorem dot_mem_fileName (l : Location) : '.' ∈ l.fileName.toList := by simp [fileName]

theorem IsNamed.fileName (h : l.IsNamed) : Path.IsName l.fileName := by
  have hlast : Path.IsName (l.pieces.getLastD "") := by
    refine h.source _ ?_
    rw [pieces_eq l]
    simp
  have hlong : 4 ≤ l.fileName.toList.length := by simp [Location.fileName]
  refine ⟨?_, ?_, ?_, ?_⟩
  · intro heq
    rw [heq] at hlong
    exact absurd hlong (by decide)
  · simpa [Location.fileName] using hlast.slash
  · intro heq
    rw [heq] at hlong
    exact absurd hlong (by decide)
  · intro heq
    rw [heq] at hlong
    exact absurd hlong (by decide)

theorem IsNamed.file (h : l.IsNamed) : ∀ s ∈ l.pieces.dropLast ++ [l.fileName], Path.IsName s := by
  intro s hs
  rcases List.mem_append.1 hs with hs | hs
  · exact h.source s (List.dropLast_subset _ hs)
  · exact List.mem_singleton.1 hs ▸ h.fileName

theorem IsNamed.names (h : l.IsNamed) : ∀ s ∈ l.names, Path.IsName s := by
  have hdirectories : ∀ s ∈ ["Resources", "Private", "Translations"], Path.IsName s := by decide
  intro s hs
  rcases List.mem_append.1 hs with hs | hs
  · rcases List.mem_append.1 (show s ∈ ["Resources", "Private", "Translations"] ++ [l.locale] from hs)
      with hs | hs
    · exact hdirectories s hs
    · exact List.mem_singleton.1 hs ▸ h.locale
  · exact h.file s hs

theorem catalogPath_eq (h : l.IsNamed) :
    catalogPath l.locale l.source = "/".intercalate l.names := by
  have hfile : String.ofList (l.source.toList.map fun c => if c = '.' then '/' else c) ++ ".xlf" =
      "/".intercalate (l.pieces.dropLast ++ [l.fileName]) := by
    have hpieces : l.pieces.map String.toList = Text.split Text.isDivider l.source.toList := by
      simp [pieces, Function.comp_def]
    apply String.toList_inj.1
    rw [Text.map_divider_eq, ← hpieces, pieces_eq l]
    simp only [String.toList_append, String.toList_ofList, String.toList_intercalate,
      List.map_append, List.map_cons, List.map_nil, Text.intercalate_concat_append, fileName]
    simp [List.getLastD_eq_getLast?]
  have hopen : Path.IsOpen "Resources/Private/Translations" := ⟨'s', by decide⟩
  unfold catalogPath
  rw [hfile, (h.locale.isOpen_join _).join (Path.isAbsolute_names h.file),
    hopen.join h.locale.isAbsolute, names]
  rw [List.cons_append, List.cons_append, List.cons_append, List.cons_append, List.nil_append,
    Path.intercalate_cons (by simp), Path.intercalate_cons (by simp),
    Path.intercalate_cons (by simp), Path.intercalate_cons (by simp)]
  apply String.toList_inj.1
  simp

/-- No catalog lies behind another one of its package. -/
theorem names_eq_of_behind (h : l.names <+: l'.names) : l.names = l'.names := by
  unfold names at h ⊢
  obtain ⟨hlocale, hfiles⟩ : l.locale = l'.locale ∧
      l.pieces.dropLast ++ [l.fileName] <+: l'.pieces.dropLast ++ [l'.fileName] := by
    simpa using h
  rw [hlocale]
  congr 1
  rcases List.prefix_concat_iff.1 hfiles with heq | hbehind
  · exact heq
  · -- the directories of a catalog have no endings
    have hmem : l.fileName ∈ l'.pieces :=
      List.dropLast_subset _ (hbehind.subset (by simp))
    exact absurd (dot_mem_fileName l) (dot_not_mem_of_mem_pieces hmem)

end Location

/-- The names on the paths of the package roots in which new catalogs are made. -/
def rootNames : List (List String) :=
  [["DistributionPackages"], ["Packages", "Application"], ["Packages", "Sites"]]

theorem writableRoots_eq : writableRoots = rootNames.map fun names => "/".intercalate names := rfl

theorem isName_of_mem_rootNames :
    ∀ names ∈ rootNames, names ≠ [] ∧ ∀ s ∈ names, Path.IsName s := by
  decide

theorem isOpen_of_mem_rootNames : ∀ names ∈ rootNames, Path.IsOpen ("/".intercalate names) := by
  simp only [rootNames, List.forall_mem_cons]
  exact ⟨⟨'s', by decide⟩, ⟨'n', by decide +kernel⟩, ⟨'s', by decide +kernel⟩, by simp⟩

/-- No package root lies in another one. -/
theorem rootNames_eq_of_behind {names others rest rest' : List String} (h : names ∈ rootNames)
    (hothers : others ∈ rootNames) (hstem : names ++ rest <+: others ++ rest') :
    names = others ∧ rest <+: rest' := by
  have hincomparable : ∀ names ∈ rootNames, ∀ others ∈ rootNames, names <+: others →
      names = others := by decide
  have heq : names = others := by
    have hnames : names <+: others ++ rest' := (List.prefix_append names rest).trans hstem
    rcases List.prefix_or_prefix_of_prefix hnames (List.prefix_append others rest') with hle | hle
    · exact hincomparable names h others hothers hle
    · exact (hincomparable others hothers names h hle).symm
  subst heq
  exact ⟨rfl, (List.prefix_append_right_inj names).1 hstem⟩

end Catalog

open Catalog (Location rootNames)

namespace Batch

variable {b : Batch}

/-- Runs that add to known catalogs, and to new ones at named locations. -/
structure Named (b : Batch) : Prop where
  proper : b.tree.Proper
  known : ∀ a ∈ b.additions, ∀ file, b.index.file? a.location = some file →
    ∃ place, b.tree.goal file.path = some place ∧ b.tree.node? place ≠ none
  named : ∀ a ∈ b.additions, b.index.file? a.location = none → a.location.IsNamed
  directory : ∀ first rest, b.roots = first :: rest →
    Path.IsOpen first ∧ (b.tree.goal (Path.join b.base first)).isSome = true
  base : b.roots = [] → Path.IsOpen b.base ∧ (b.tree.goal b.base).isSome = true

theorem named_iff : b.Named ↔ b.tree.Proper ∧
    (∀ a ∈ b.additions, match b.index.file? a.location with
      | some file => ((b.tree.goal file.path).bind b.tree.node?).isSome = true
      | none => a.location.IsNamed) ∧
    match b.roots with
    | first :: _ => Path.IsOpen first ∧ (b.tree.goal (Path.join b.base first)).isSome = true
    | [] => Path.IsOpen b.base ∧ (b.tree.goal b.base).isSome = true := by
  constructor
  · intro h
    refine ⟨h.proper, ?_, ?_⟩
    · intro a ha
      cases hfile : b.index.file? a.location with
      | some file =>
        obtain ⟨place, hplace, hknown⟩ := h.known a ha file hfile
        simpa [hplace, Option.isSome_iff_ne_none] using hknown
      | none => exact h.named a ha hfile
    · cases hroots : b.roots with
      | cons first rest => exact h.directory first rest hroots
      | nil => exact h.base hroots
  · rintro ⟨hproper, hadditions, hdirectory⟩
    refine ⟨hproper, ?_, ?_, ?_, ?_⟩
    · intro a ha file hfile
      have hknown := hadditions a ha
      rw [hfile] at hknown
      obtain ⟨n, hn⟩ := Option.isSome_iff_exists.1 hknown
      obtain ⟨place, hplace, hnode⟩ := Option.bind_eq_some_iff.1 hn
      exact ⟨place, hplace, by simp [hnode]⟩
    · intro a ha hnew
      have hnamed := hadditions a ha
      rw [hnew] at hnamed
      exact hnamed
    · intro first rest hroots
      rw [hroots] at hdirectory
      exact hdirectory
    · intro hroots
      rw [hroots] at hdirectory
      exact hdirectory

instance (b : Batch) : Decidable b.Named :=
  have (a : Catalog.Addition) : Decidable (match b.index.file? a.location with
      | some file => ((b.tree.goal file.path).bind b.tree.node?).isSome = true
      | none => a.location.IsNamed) := by
    split <;> infer_instance
  have : Decidable (match b.roots with
      | first :: _ => Path.IsOpen first ∧ (b.tree.goal (Path.join b.base first)).isSome = true
      | [] => Path.IsOpen b.base ∧ (b.tree.goal b.base).isSome = true) := by
    split <;> infer_instance
  decidable_of_iff _ named_iff.symm

theorem goal_packageDirectory (hopen : Path.IsOpen b.base) {front : List String}
    (hfront : b.tree.goal b.base = some front) {names : List String} (hnames : names ∈ rootNames)
    {package : String} (hpackage : Path.IsName package) :
    b.tree.goal (b.packageDirectory ("/".intercalate names) package) =
      some (front ++ (names ++ [package])) := by
  obtain ⟨hne, hroot⟩ := Catalog.isName_of_mem_rootNames names hnames
  have hgoal := FileTree.goal_join hopen hfront hroot hne
  have hopenRoot := (Catalog.isOpen_of_mem_rootNames names hnames).isOpen_join b.base
  have hsingle : ∀ s ∈ [package], Path.IsName s := by simpa using hpackage
  have hjoin := FileTree.goal_join hopenRoot hgoal hsingle (List.cons_ne_nil _ _)
  rw [List.append_assoc] at hjoin
  simpa [packageDirectory] using hjoin

/-- The places at which new catalogs are made: in the first of the discovery paths, or in a
directory of the package. -/
def MadeAt (b : Batch) (l : Location) (place : List String) : Prop :=
  (∃ first rest front, b.roots = first :: rest ∧
    b.tree.goal (Path.join b.base first) = some front ∧ place = front ++ l.names) ∨
  (b.roots = [] ∧ ∃ front, b.tree.goal b.base = some front ∧ ∃ names ∈ rootNames,
    b.tree.node? (front ++ (names ++ [l.package])) ≠ none ∧
    place = front ++ (names ++ l.package :: l.names))

theorem Named.madeAt (h : b.Named) {a : Catalog.Addition} (ha : a ∈ b.additions)
    (hnew : b.index.file? a.location = none) {path : String}
    (hpath : b.path? a.location = some path) :
    ∃ place, b.tree.goal path = some place ∧ b.MadeAt a.location place := by
  have hnamed := h.named a ha hnew
  have hne : a.location.names ≠ [] := by simp [Location.names]
  unfold path? Catalog.additionPath? Catalog.newPath? at hpath
  rw [hnew, Option.map_none, Option.none_or, Location.catalogPath_eq hnamed] at hpath
  cases hroots : b.roots with
  | cons first rest =>
    rw [hroots] at hpath
    simp only [Option.some.injEq] at hpath
    obtain ⟨hopen, hleads⟩ := h.directory first rest hroots
    obtain ⟨front, hfront⟩ := Option.isSome_iff_exists.1 hleads
    have hcatalog := FileTree.goal_join (hopen.isOpen_join b.base) hfront hnamed.names hne
    exact ⟨_, hpath ▸ hcatalog, .inl ⟨first, rest, front, hroots, hfront, rfl⟩⟩
  | nil =>
    rw [hroots] at hpath
    simp only at hpath
    obtain ⟨hopen, hleads⟩ := h.base hroots
    obtain ⟨front, hfront⟩ := Option.isSome_iff_exists.1 hleads
    obtain ⟨directory, hfound, hcatalogPath⟩ := Option.map_eq_some_iff.1 hpath
    obtain ⟨root, hroot, rfl⟩ := List.mem_map.1 (List.mem_of_find?_eq_some hfound)
    rw [Catalog.writableRoots_eq] at hroot
    obtain ⟨names, hnames, rfl⟩ := List.mem_map.1 hroot
    have hpackage := goal_packageDirectory hopen hfront hnames hnamed.package
    have hthere : b.tree.isDirectory (b.packageDirectory ("/".intercalate names) _) = true :=
      List.find?_some hfound
    rw [FileTree.isDirectory_of_goal h.proper.closed hpackage] at hthere
    have hcatalog := FileTree.goal_join (hnamed.package.isOpen_join _) hpackage hnamed.names hne
    refine ⟨_, hcatalogPath ▸ hcatalog, .inr ⟨hroots, front, hfront, names, hnames, ?_, by simp⟩⟩
    intro hnone
    rw [hnone] at hthere
    cases hthere

/-- A catalog is there, or is made where new ones are made. -/
theorem Named.goal_cases (h : b.Named) {a : Catalog.Addition} (ha : a ∈ b.additions)
    {path : String} (hpath : b.path? a.location = some path) :
    ∃ place, b.tree.goal path = some place ∧
      (b.tree.node? place ≠ none ∨ b.MadeAt a.location place) := by
  cases hfile : b.index.file? a.location with
  | some file =>
    obtain ⟨place, hplace, hknown⟩ := h.known a ha file hfile
    have hfilePath : file.path = path := by
      unfold path? Catalog.additionPath? at hpath
      simpa [hfile] using hpath
    exact ⟨place, hfilePath ▸ hplace, .inl hknown⟩
  | none =>
    obtain ⟨place, hplace, hmade⟩ := h.madeAt ha hfile hpath
    exact ⟨place, hplace, .inr hmade⟩

theorem Named.known_or_madeAt (h : b.Named) {a : Catalog.Addition} (ha : a ∈ b.additions)
    {place : List String} (hplace : b.goal? a.location = some place) :
    b.tree.node? place ≠ none ∨ b.MadeAt a.location place := by
  obtain ⟨path, hpath, hgoal⟩ := Option.bind_eq_some_iff.1 hplace
  obtain ⟨other, hother, hcases⟩ := h.goal_cases ha hpath
  rw [hgoal, Option.some.injEq] at hother
  exact hother ▸ hcases

/-- No catalog is made behind another new one. -/
theorem MadeAt.eq_of_behind {l l' : Location} {place other : List String} (h : b.MadeAt l place)
    (h' : b.MadeAt l' other) (hstem : place <+: other) : place = other := by
  rcases h with ⟨first, rest, front, hroots, hfront, rfl⟩ |
    ⟨hroots, front, hfront, names, hnames, -, rfl⟩ <;>
  rcases h' with ⟨first', rest', front', hroots', hfront', rfl⟩ |
    ⟨hroots', front', hfront', names', hnames', -, rfl⟩ <;>
  rw [hroots] at hroots'
  · cases hroots'
    rw [hfront] at hfront'
    cases hfront'
    rw [Location.names_eq_of_behind ((List.prefix_append_right_inj front).1 hstem)]
  · cases hroots'
  · cases hroots'
  · rw [hfront] at hfront'
    cases hfront'
    obtain ⟨rfl, hbehind⟩ := Catalog.rootNames_eq_of_behind hnames hnames'
      ((List.prefix_append_right_inj front).1 hstem)
    obtain ⟨hpackage, hbehind⟩ := List.cons_prefix_cons.1 hbehind
    rw [hpackage, Location.names_eq_of_behind hbehind]

/-- The catalogs of such a run do not get into each other's way. -/
theorem Named.separate (h : b.Named) : b.Separate := by
  have hclosed := h.proper.closed
  refine ⟨h.proper, ?_, ?_, ?_⟩
  · intro a ha path hpath
    obtain ⟨place, hplace, -⟩ := h.goal_cases ha hpath
    simp [hplace]
  · intro a ha a' ha' place other hplace hother hne hstem
    rcases h.known_or_madeAt ha' hother with hthere | hmade'
    · exact hclosed.ne_none_of_behind hstem hthere
    · rcases h.known_or_madeAt ha hplace with hthere | hmade
      · exact hthere
      · exact absurd (hmade.eq_of_behind hmade' hstem) hne
  · intro a ha hnew hroots root hroot
    obtain ⟨hopen, hleads⟩ := h.base hroots
    obtain ⟨front, hfront⟩ := Option.isSome_iff_exists.1 hleads
    rw [Catalog.writableRoots_eq] at hroot
    obtain ⟨names, hnames, rfl⟩ := List.mem_map.1 hroot
    refine ⟨_, goal_packageDirectory hopen hfront hnames (h.named a ha hnew).package, ?_⟩
    intro a' ha' other hother hstem
    rcases h.known_or_madeAt ha' hother with hthere | ⟨first, rest, -, hroots', -⟩ |
      ⟨-, front', hfront', names', hnames', hthere, rfl⟩
    · exact hclosed.ne_none_of_behind hstem hthere
    · rw [hroots] at hroots'
      cases hroots'
    · rw [hfront] at hfront'
      cases hfront'
      obtain ⟨rfl, hbehind⟩ := Catalog.rootNames_eq_of_behind hnames hnames'
        ((List.prefix_append_right_inj front).1 hstem)
      obtain ⟨hpackage, -⟩ := List.cons_prefix_cons.1 hbehind
      rw [hpackage]
      exact hthere

/-- Additions to a known catalog and to new ones, by their sources and identifiers. -/
def ofCatalog (settings : Catalog.WriterSettings) (text : String)
    (additions : List (String × String)) : Batch where
  settings
  base := "/"
  roots := ["App"]
  index := { files := SortedMap.empty.insert ⟨"de", "app", "Main"⟩ { path := mainFile } }
  tree := treeOf text
  additions := additions.map fun (source, id) => .ofFallback "de" ⟨"app", source, id⟩ "" .empty

end Batch

end TranslationAudit
