import TranslationAudit.Proofs.Catalog.VisitAll
import TranslationAudit.Proofs.Project.Discovery
import TranslationAudit.Proofs.Update

/-! # Additions to several catalogs

* `Batch`: a run that adds units to their catalogs.
* `Batch.Separate`: runs in which no catalog has to be made where another one lies, or where
  packages are looked for.
* `Batch.outcome_eq`, `Batch.dryOutcome_eq`: such a run visits the catalogs that are named by the
  files as they are at its beginning.
-/

namespace TranslationAudit

open Catalog (Addition Document Header Index Location Stage Visit WriteOutcome WriterSettings
  additionPath? visitAll writableRoots)

theorem FileTree.Proper.closed {t : FileTree} (h : t.Proper) : t.Closed := by
  intro place n hn
  unfold FileTree.node? at hn
  split at hn
  · next hempty =>
    rw [List.isEmpty_iff.1 hempty]
    intro front name rest hnil
    simp at hnil
  · exact h.led place n (SortedMap.mem_of_get? hn)

theorem FileTree.isDirectory_of_goal {t : FileTree} (h : t.Closed) {path : String}
    {place : List String} (hgoal : t.goal path = some place) :
    t.isDirectory path = (t.node? place).any FileNode.isDirectory := by
  unfold FileTree.isDirectory
  rcases FileTree.find_cases h hgoal with ⟨n, hn, hfind⟩ | ⟨hnone, -, hfind⟩ | ⟨hnone, -, hfind⟩
  · rw [hfind, hn]
    rfl
  · rw [hfind, hnone]
    rfl
  · rw [hfind, hnone]
    rfl

/-- A run that adds units to their catalogs. -/
structure Batch where
  settings : WriterSettings
  base : String
  /-- The discovery paths, under the first of which new catalogs are made. -/
  roots : List String
  index : Index
  tree : FileTree
  additions : List Addition

namespace Batch

def outcome (b : Batch) : WriteOutcome :=
  Catalog.writeAdditions b.settings b.base b.roots b.index b.tree b.additions

/-- The run that leaves all files as they are. -/
def dry (b : Batch) : Batch := { b with settings := { b.settings with dryRun := true } }

/-- The additions to each location. -/
def groups (b : Batch) : List (Location × List Addition) :=
  (Dict.groupBy Addition.location b.additions).entries

def step (b : Batch) (o : WriteOutcome) (group : Location × List Addition) : WriteOutcome :=
  Catalog.writeGroup b.settings b.base b.roots b.index o group

theorem outcome_eq_foldl (b : Batch) : b.outcome = b.groups.foldl b.step { tree := b.tree } := rfl

/-- The file of the catalog at a location, known or new. -/
def path? (b : Batch) (l : Location) : Option String :=
  additionPath? b.tree b.base b.roots b.index l

/-- The place of the catalog at a location. -/
def goal? (b : Batch) (l : Location) : Option (List String) := (b.path? l).bind b.tree.goal

/-- The directory of a package in one of the package roots. -/
def packageDirectory (b : Batch) (root package : String) : String :=
  Path.join (Path.join b.base root) package

/-- Runs in which no catalog has to be made where another one lies, or where packages are looked
for. -/
structure Separate (b : Batch) : Prop where
  proper : b.tree.Proper
  leads : ∀ a ∈ b.additions, ∀ path, b.path? a.location = some path →
    (b.tree.goal path).isSome = true
  apart : ∀ a ∈ b.additions, ∀ a' ∈ b.additions, ∀ place other,
    b.goal? a.location = some place → b.goal? a'.location = some other → place ≠ other →
      place <+: other → b.tree.node? place ≠ none
  settled : ∀ a ∈ b.additions, b.index.file? a.location = none → b.roots = [] →
    ∀ root ∈ writableRoots, ∃ place,
      b.tree.goal (b.packageDirectory root a.key.package) = some place ∧
        ∀ a' ∈ b.additions, ∀ other, b.goal? a'.location = some other → place <+: other →
          b.tree.node? place ≠ none

/-- The visit of the additions to a catalog. -/
def visit (settings : WriterSettings) (path : String) (group : Location × List Addition) :
    Visit where
  path
  header d := .resolve d.metadata group.1.package group.1.locale
  change d := d.insertAll settings
    ((Header.resolve d.metadata group.1.package group.1.locale).writesTarget group.1.locale) group.2

def visits (b : Batch) : List Visit :=
  b.groups.filterMap fun group => (b.path? group.1).map fun path => visit b.settings path group

variable {b : Batch}

theorem mem_groups {group : Location × List Addition} :
    group ∈ b.groups ↔
      group.2 ≠ [] ∧ group.2 = b.additions.filter fun a => a.location = group.1 :=
  Dict.mem_entries_groupBy Addition.location b.additions

theorem exists_mem_of_mem_groups {group : Location × List Addition} (h : group ∈ b.groups) :
    ∃ a ∈ b.additions, a.location = group.1 := by
  obtain ⟨hne, hgroup⟩ := mem_groups.1 h
  obtain ⟨a, ha⟩ := List.exists_mem_of_ne_nil _ hne
  rw [hgroup, List.mem_filter] at ha
  exact ⟨a, ha.1, of_decide_eq_true ha.2⟩

theorem mem_visits {v : Visit} :
    v ∈ b.visits ↔ ∃ group ∈ b.groups, ∃ path, b.path? group.1 = some path ∧
      visit b.settings path group = v := by
  simp only [visits, List.mem_filterMap, Option.map_eq_some_iff]

/-- A run whose catalogs stay where they are goes to them one by one. -/
theorem outcome_eq_visitAll {Q : FileTree → Prop} (hstart : Q b.tree)
    (hpath : ∀ s, Q s → ∀ a ∈ b.additions,
      additionPath? s b.base b.roots b.index a.location = b.path? a.location)
    (hnext : ∀ s, Q s → ∀ v ∈ b.visits, Q (v.alone b.settings s).tree) :
    b.outcome = visitAll b.settings { tree := b.tree } b.visits := by
  have hall {groups : List (Location × List Addition)} (hgroups : ∀ group ∈ groups, group ∈ b.groups)
      {o : WriteOutcome} (ho : Q o.tree) :
      groups.foldl b.step o = visitAll b.settings o (groups.filterMap fun group =>
        (b.path? group.1).map fun path => visit b.settings path group) := by
    induction groups generalizing o with
    | nil => rfl
    | cons group groups ih =>
      have hmem := hgroups group List.mem_cons_self
      have hrest : ∀ g ∈ groups, g ∈ b.groups := fun g hg => hgroups g (List.mem_cons_of_mem _ hg)
      obtain ⟨a, ha, hlocation⟩ := exists_mem_of_mem_groups hmem
      have hroute := hpath o.tree ho a ha
      rw [hlocation] at hroute
      rw [List.foldl_cons, List.filterMap_cons, step, Catalog.writeGroup, hroute]
      cases hp : b.path? group.1 with
      | none => exact ih hrest ho
      | some path =>
        have hvisit : Q ((visit b.settings path group).run b.settings o).tree := by
          rw [Visit.tree_run]
          exact hnext o.tree ho _ (mem_visits.2 ⟨group, hmem, path, hp, rfl⟩)
        exact ih hrest hvisit
  exact hall (fun _ h => h) hstart

/-- A dry run goes to the same catalogs. -/
theorem dryOutcome_eq (b : Batch) :
    b.dry.outcome = visitAll { b.settings with dryRun := true } { tree := b.tree } b.visits := by
  have hvisits : b.dry.visits = b.visits := rfl
  rw [← hvisits]
  refine outcome_eq_visitAll (Q := fun s => s = b.tree) rfl ?_ ?_
  · rintro s rfl a -
    rfl
  · rintro s rfl v -
    exact Visit.tree_alone_of_dry rfl b.tree v

section Separate

variable (h : b.Separate)
include h

theorem unhindered_visits : Catalog.Unhindered b.tree b.visits := by
  have hgoal {group : Location × List Addition} {path : String}
      (hpath : b.path? group.1 = some path) : b.goal? group.1 = b.tree.goal path := by
    rw [goal?, hpath]
    rfl
  refine ⟨h.proper.closed, ?_, ?_⟩
  · intro v hv
    obtain ⟨group, hgroup, path, hpath, rfl⟩ := mem_visits.1 hv
    obtain ⟨a, ha, hlocation⟩ := exists_mem_of_mem_groups hgroup
    exact h.leads a ha path (hlocation ▸ hpath)
  · intro v hv w hw place other hplace hother
    obtain ⟨group, hgroup, path, hpath, rfl⟩ := mem_visits.1 hv
    obtain ⟨group', hgroup', path', hpath', rfl⟩ := mem_visits.1 hw
    obtain ⟨a, ha, hlocation⟩ := exists_mem_of_mem_groups hgroup
    obtain ⟨a', ha', hlocation'⟩ := exists_mem_of_mem_groups hgroup'
    refine h.apart a ha a' ha' place other ?_ ?_
    · rw [hlocation, hgoal hpath]
      exact hplace
    · rw [hlocation', hgoal hpath']
      exact hother

theorem goal_of_mem_visits {v : Visit} (hv : v ∈ b.visits) :
    ∃ a ∈ b.additions, ∃ place, b.goal? a.location = some place ∧
      b.tree.goal v.path = some place := by
  obtain ⟨group, hgroup, path, hpath, rfl⟩ := mem_visits.1 hv
  obtain ⟨a, ha, hlocation⟩ := exists_mem_of_mem_groups hgroup
  rw [← hlocation] at hpath
  obtain ⟨place, hplace⟩ := Option.isSome_iff_exists.1 (h.leads a ha path hpath)
  exact ⟨a, ha, place, by rw [goal?, hpath]; exact hplace, hplace⟩

omit h in
/-- The trees in which a run is while it goes on. Nothing changes where no catalog lies behind. -/
structure Underway (b : Batch) (s : FileTree) : Prop where
  stage : Stage b.tree s
  elsewhere : ∀ place, (∀ a ∈ b.additions, ∀ other, b.goal? a.location = some other →
    ¬place <+: other) → s.node? place = b.tree.node? place

omit h in
theorem Underway.refl (hclosed : b.tree.Closed) : b.Underway b.tree := ⟨.refl hclosed, fun _ _ => rfl⟩

theorem Underway.visit {s : FileTree} (hs : b.Underway s)
    {v : Visit} (hv : v ∈ b.visits) : b.Underway (v.alone b.settings s).tree := by
  obtain ⟨a, ha, other, hother, hgoal⟩ := goal_of_mem_visits h hv
  refine ⟨hs.stage.visit b.settings hgoal, ?_⟩
  intro place hplace
  rw [← hs.elsewhere place hplace]
  rcases Visit.tree_alone_cases b.settings hs.stage.closed (hs.stage.goal hgoal) with
    hsame | ⟨d, -, t', hsaved, halone⟩
  · rw [hsame]
  · rw [halone]
    exact hsaved.other place (hplace a ha other hother)

/-- The catalogs stay where they are while a run goes on. -/
theorem Underway.path? {s : FileTree} (hs : b.Underway s) {a : Addition} (ha : a ∈ b.additions) :
    additionPath? s b.base b.roots b.index a.location = b.path? a.location := by
  unfold Batch.path? additionPath?
  cases hfile : b.index.file? a.location with
  | some file => rfl
  | none =>
    simp only [Option.map_none, Option.none_or]
    unfold Catalog.newPath?
    cases hroots : b.roots with
    | cons first rest => rfl
    | nil =>
      simp only
      rw [← List.head?_filter, ← List.head?_filter]
      congr 2
      apply List.filter_congr
      intro directory hdirectory
      obtain ⟨root, hroot, rfl⟩ := List.mem_map.1 hdirectory
      obtain ⟨place, hplace, hclear⟩ := h.settled a ha hfile hroots root hroot
      have hs' : s.isDirectory (b.packageDirectory root a.key.package) = _ :=
        FileTree.isDirectory_of_goal hs.stage.closed (hs.stage.goal hplace)
      have ht : b.tree.isDirectory (b.packageDirectory root a.key.package) = _ :=
        FileTree.isDirectory_of_goal h.proper.closed hplace
      refine hs'.trans (Eq.trans ?_ ht.symm)
      cases hn : b.tree.node? place with
      | none =>
        rw [hs.elsewhere place fun a' ha' other hother hstem =>
          hclear a' ha' other hother hstem hn, hn]
      | some n =>
        obtain ⟨n', hn', hkind, -⟩ := hs.stage.persists place n hn
        rw [hn', Option.any_some, Option.any_some, hkind]

theorem outcome_eq : b.outcome = visitAll b.settings { tree := b.tree } b.visits :=
  outcome_eq_visitAll (Underway.refl h.proper.closed) (fun _ hs _ ha => Underway.path? h hs ha)
    fun _ hs _ hv => Underway.visit h hs hv

theorem underway_outcome : b.Underway b.outcome.tree := by
  rw [outcome_eq h]
  refine List.foldlRecOn (motive := fun o : WriteOutcome => b.Underway o.tree) b.visits _
    (.refl h.proper.closed) ?_
  intro o ho v hv
  rw [Visit.tree_run]
  exact ho.visit h hv

end Separate

end Batch

end TranslationAudit
