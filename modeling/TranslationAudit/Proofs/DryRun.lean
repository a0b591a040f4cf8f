import TranslationAudit.Proofs.Catalog.Rehearsal
import TranslationAudit.Proofs.Repetition

/-! # Dry runs

* `FileTree.Distinguishes`: paths with different steps that go to different places.
* `Catalog.deleteEntries_eq_visitAll`: deletions visit the catalogs that are files at the beginning.
* `Batch.predicts_outcome`: dry additions tell what additions do.
* `Catalog.predicts_deleteEntries`: dry deletions tell what deletions do.
-/

namespace TranslationAudit

namespace FileTree

/-- Paths with different steps that go to different places. -/
def Distinguishes (t : FileTree) (paths : List String) : Prop :=
  ∀ p ∈ paths, ∀ q ∈ paths, ∀ place, t.goal p = some place → t.goal q = some place →
    Path.components p = Path.components q

instance (t : FileTree) (paths : List String) : Decidable (t.Distinguishes paths) :=
  decidable_of_iff (∀ p ∈ paths, ∀ q ∈ paths, (t.goal p).isSome = true → t.goal p = t.goal q →
      Path.components p = Path.components q) <| by
    constructor
    · intro h p hp q hq place hplace hsame
      exact h p hp q hq (by simp [hplace]) (hplace.trans hsame.symm)
    · intro h p hp q hq hleads hsame
      obtain ⟨place, hplace⟩ := Option.isSome_iff_exists.1 hleads
      exact h p hp q hq place hplace (hsame.symm.trans hplace)

end FileTree

namespace Catalog

/-! ## Deletions -/

/-- The visit of entries that are removed from their catalog. -/
def removal (first : Entry) (entries : List Entry) : Visit where
  path := first.file
  header d := .resolve d.metadata first.key.package first.locale
  change d := d.removeAll (entries.map fun e => e.key.id)

/-- The removals from catalogs that are files. -/
def removals (t : FileTree) (groups : List (List Entry)) : List Visit :=
  groups.filterMap fun group =>
    match group with
    | [] => none
    | first :: _ => if t.isFile first.file then some (removal first group) else none

variable {settings : WriterSettings} {t : FileTree} {entries : List Entry} {v : Visit}

theorem mem_removals {groups : List (List Entry)} :
    v ∈ removals t groups ↔
      ∃ first rest, first :: rest ∈ groups ∧ t.isFile first.file = true ∧
        removal first (first :: rest) = v := by
  unfold removals
  rw [List.mem_filterMap]
  constructor
  · rintro ⟨group, hgroup, hv⟩
    cases group with
    | nil => cases hv
    | cons first rest =>
      obtain ⟨hfile, hv⟩ := Option.ite_none_right_eq_some.1 hv
      exact ⟨first, rest, hgroup, hfile, Option.some.inj hv⟩
  · rintro ⟨first, rest, hgroup, hfile, rfl⟩
    exact ⟨_, hgroup, if_pos hfile⟩

/-- Deletions visit the catalogs that are files at the beginning. -/
theorem deleteEntries_eq_visitAll (settings : WriterSettings) (h : t.Closed)
    (entries : List Entry) :
    deleteEntries settings t entries = visitAll settings { tree := t }
      (removals t (Dict.groupBy (fun e => Path.components e.file) entries).values) := by
  have hall (groups : List (List Entry)) {o : WriteOutcome} (hstage : Stage t o.tree)
      (hkinds : t.SameKinds o.tree) :
      groups.foldl (fun o group =>
        match group with
        | [] => o
        | first :: _ =>
          if o.tree.isFile first.file then
            deleteFrom settings o first.file first (group.map fun e => e.key.id)
          else o) o = visitAll settings o (removals t groups) := by
    induction groups generalizing o with
    | nil => rfl
    | cons group groups ih =>
      rw [List.foldl_cons]
      cases group with
      | nil => exact ih hstage hkinds
      | cons first rest =>
        unfold removals
        rw [List.filterMap_cons]
        simp only [hkinds.isFile]
        by_cases hfile : t.isFile first.file = true
        · obtain ⟨place, hplace, hthere⟩ := FileTree.exists_goal_of_isFile hfile
          have hrun : deleteFrom settings o first.file first
              ((first :: rest).map fun e => e.key.id) =
                (removal first (first :: rest)).run settings o := rfl
          simp only [hfile, if_true]
          rw [hrun, visitAll_cons]
          have htree := Visit.tree_run settings o (removal first (first :: rest))
          refine ih ?_ ?_
          · rw [htree]
            exact hstage.visit settings hplace
          · rw [htree]
            rcases Visit.tree_alone_cases settings hstage.closed (hstage.goal hplace)
              (v := removal first (first :: rest)) with hsame | ⟨d, -, s, hsaved, halone⟩
            · rw [hsame]
              exact hkinds
            · rw [halone]
              exact hkinds.trans
                (hsaved.sameKinds hstage.closed (hstage.persists.ne_none hthere))
        · simp only [hfile]
          exact ih hstage hkinds
  exact hall _ (.refl h) (.refl t)

theorem unhindered_removals (h : t.Closed) (groups : List (List Entry)) :
    Unhindered t (removals t groups) := by
  have hthere {v : Visit} (hv : v ∈ removals t groups) :
      ∃ place, t.goal v.path = some place ∧ t.node? place ≠ none := by
    obtain ⟨first, rest, -, hfile, rfl⟩ := mem_removals.1 hv
    exact FileTree.exists_goal_of_isFile hfile
  refine ⟨h, ?_, ?_⟩
  · intro v hv
    obtain ⟨place, hplace, -⟩ := hthere hv
    simp [hplace]
  · intro v hv w _ place other hplace _ _ _
    obtain ⟨place', hplace', hnode⟩ := hthere hv
    rw [hplace, Option.some.injEq] at hplace'
    exact hplace' ▸ hnode

/-- Dry deletions tell what deletions do, if different paths do not lead to one file. -/
theorem predicts_deleteEntries (h : t.Closed) (hdry : settings.dryRun = false)
    (hdistinguishes : t.Distinguishes (entries.map Entry.file))
    (hwrites : ∀ e ∈ (deleteEntries settings t entries).failures, e.isWrite = false) :
    Predicts t (deleteEntries { settings with dryRun := true } t entries)
      (deleteEntries settings t entries) := by
  have hkey {first : Entry} {rest : List Entry} {k : List Path.Component}
      (hgroup : (k, first :: rest) ∈
        (Dict.groupBy (fun e => Path.components e.file) entries).entries) :
      Path.components first.file = k ∧ first ∈ entries := by
    obtain ⟨-, hfilter⟩ := (Dict.mem_entries_groupBy _ _).1 hgroup
    have hfirst : first ∈ entries.filter fun e => Path.components e.file = k :=
      hfilter ▸ List.mem_cons_self
    obtain ⟨hmem, hcomponents⟩ := List.mem_filter.1 hfirst
    exact ⟨of_decide_eq_true hcomponents, hmem⟩
  rw [deleteEntries_eq_visitAll _ h] at hwrites ⊢
  rw [deleteEntries_eq_visitAll _ h]
  refine predicts_visitAll (K := fun _ => True) (unhindered_removals h _) hdry ?_ hwrites
  have hdistinct := Dict.distinct_groupBy (fun e : Entry => Path.components e.file) entries
  unfold removals Dict.values
  rw [List.pairwise_filterMap, List.pairwise_map]
  refine (List.pairwise_map.1 hdistinct).imp_of_mem ?_
  rintro ⟨k, group⟩ ⟨k', group'⟩ hgroup hgroup' hne v hv w hw hgoal
  cases group with
  | nil => cases hv
  | cons first rest =>
    cases group' with
    | nil => cases hw
    | cons first' rest' =>
      obtain ⟨hfile, hv⟩ := Option.ite_none_right_eq_some.1 hv
      obtain ⟨-, hw⟩ := Option.ite_none_right_eq_some.1 hw
      cases hv
      cases hw
      obtain ⟨rfl, hmem⟩ := hkey hgroup
      obtain ⟨rfl, hmem'⟩ := hkey hgroup'
      obtain ⟨place, hplace, -⟩ := FileTree.exists_goal_of_isFile hfile
      exact absurd (hdistinguishes _ (List.mem_map_of_mem hmem) _ (List.mem_map_of_mem hmem')
        place hplace (hgoal.symm.trans hplace)) hne

end Catalog

namespace Batch

/-! ## Additions -/

open Catalog (Predicts Visit)

/-- The paths of the catalogs that are added to. -/
def paths (b : Batch) : List String := b.additions.filterMap fun a => b.path? a.location

variable {b : Batch}

theorem keeps_visit {a : Catalog.Addition} (hstable : b.Stable a) {path : String}
    (hpath : b.path? a.location = some path) (group : Catalog.Location × List Catalog.Addition) :
    (visit b.settings path group).Keeps b.settings b.tree
      (Catalog.Document.Rereadable b.settings.layout) where
  first _ hload := rereadable_of_load hstable hpath hload
  again d hd _ t' path' hread := by
    obtain ⟨d', hload, hd', -⟩ := hd.insertAll hread
    exact ⟨d', hload, hd'⟩

/-- Dry additions tell what additions do, if different paths do not lead to one file, and if what is
written for one location can be read for others. -/
theorem predicts_outcome (h : b.Separate) (hdry : b.settings.dryRun = false)
    (hstable : ∀ a ∈ b.additions, ∀ a' ∈ b.additions, a.location ≠ a'.location →
      b.goal? a.location = b.goal? a'.location → b.Stable a)
    (hdistinguishes : b.tree.Distinguishes b.paths)
    (hwrites : ∀ e ∈ b.outcome.failures, e.isWrite = false) :
    Predicts b.tree b.dry.outcome b.outcome := by
  have hunhindered := unhindered_visits h
  have hagain : b.visits.Pairwise fun v w => b.tree.goal v.path = b.tree.goal w.path →
      Path.components v.path = Path.components w.path ∧
        v.Keeps b.settings b.tree (Catalog.Document.Rereadable b.settings.layout) := by
    have hdistinct : b.groups.Pairwise fun group group' => group.1 ≠ group'.1 :=
      List.pairwise_map.1 (Dict.distinct_groupBy Catalog.Addition.location b.additions)
    unfold visits
    rw [List.pairwise_filterMap]
    refine hdistinct.imp_of_mem ?_
    intro group group' hgroup hgroup' hne v hv w hw hgoal
    obtain ⟨path, hpath, rfl⟩ := Option.map_eq_some_iff.1 hv
    obtain ⟨path', hpath', rfl⟩ := Option.map_eq_some_iff.1 hw
    obtain ⟨a, ha, hlocation⟩ := exists_mem_of_mem_groups hgroup
    obtain ⟨a', ha', hlocation'⟩ := exists_mem_of_mem_groups hgroup'
    obtain ⟨place, hplace⟩ := Option.isSome_iff_exists.1
      (hunhindered.leads _ (mem_visits.2 ⟨group, hgroup, path, hpath, rfl⟩))
    rw [← hlocation] at hpath hne
    rw [← hlocation'] at hpath' hne
    have hsame : b.goal? a.location = b.goal? a'.location := by
      rw [goal?, goal?, hpath, hpath']
      exact hgoal
    have hmem : path ∈ b.paths := List.mem_filterMap.2 ⟨a, ha, hpath⟩
    have hmem' : path' ∈ b.paths := List.mem_filterMap.2 ⟨a', ha', hpath'⟩
    exact ⟨hdistinguishes path hmem path' hmem' place hplace (hgoal.symm.trans hplace),
      keeps_visit (hstable a ha a' ha' hne hsame) hpath group⟩
  rw [outcome_eq h] at hwrites ⊢
  rw [dryOutcome_eq]
  exact Catalog.predicts_visitAll hunhindered hdry hagain hwrites

end Batch

/-! ## Additions and deletions -/

open Catalog (Entry Predicts deleteEntries)

/-- A dry run touches what the run touches and fails as it fails, if different paths do not lead to
one file, what is written for one location can be read for others, and all files can be written. So
does a dry deletion with the same settings in the same files. -/
theorem dryRun_predicts (b : Batch) (hdry : b.settings.dryRun = false) :
    (b.Separate →
      (∀ a ∈ b.additions, ∀ a' ∈ b.additions, a.location ≠ a'.location →
        b.goal? a.location = b.goal? a'.location → b.Stable a) →
      b.tree.Distinguishes b.paths → (∀ e ∈ b.outcome.failures, e.isWrite = false) →
      Predicts b.tree b.dry.outcome b.outcome) ∧
    ∀ entries : List Entry, b.tree.Closed → b.tree.Distinguishes (entries.map Entry.file) →
      (∀ e ∈ (deleteEntries b.settings b.tree entries).failures, e.isWrite = false) →
      Predicts b.tree (deleteEntries { b.settings with dryRun := true } b.tree entries)
        (deleteEntries b.settings b.tree entries) := by
  refine ⟨?_, ?_⟩
  · intro h hstable hdistinguishes hwrites
    exact Batch.predicts_outcome h hdry hstable hdistinguishes hwrites
  · intro entries h hdistinguishes hwrites
    exact Catalog.predicts_deleteEntries h hdry hdistinguishes hwrites

/-- A run that makes a catalog which two sources share, and one that removes a unit. -/
theorem dryRun_predicts_divided :
    let b := Batch.ofCatalog {} "<x><file><body><trans-unit id='a'/></body></file></x>"
      [("A.B", ""), ("A/B", "b")]
    let entries : List Entry := [{ locale := "de", key := ⟨"app", "Main", "a"⟩, file := mainFile }]
    (b.outcome.touched = ["/App/Resources/Private/Translations/de/A/B.xlf"] ∧
        (deleteEntries {} b.tree entries).touched = [mainFile]) ∧
      Predicts b.tree b.dry.outcome b.outcome ∧
      Predicts b.tree (deleteEntries { dryRun := true } b.tree entries)
        (deleteEntries {} b.tree entries) := by
  intro b entries
  have hadds : b.outcome.touched = ["/App/Resources/Private/Translations/de/A/B.xlf"] ∧
      b.outcome.failures.all (fun e => !e.isWrite) = true := by decide +kernel
  have hdeletes : (deleteEntries {} b.tree entries).touched = [mainFile] ∧
      (deleteEntries {} b.tree entries).failures.all (fun e => !e.isWrite) = true := by
    decide +kernel
  have hnames : b.Named ∧ b.tree.Distinguishes b.paths ∧
      b.tree.Distinguishes (entries.map Entry.file) ∧ ∀ a ∈ b.additions,
        ∀ text ∈ (b.path? a.location).bind fun path => (b.tree.read path).toOption,
          Catalog.Document.NamesIn text := by decide +kernel
  obtain ⟨hnamed, hdistinguishes, hfiles, hnames⟩ := hnames
  obtain ⟨hadditions, hdeletions⟩ := dryRun_predicts b rfl
  refine ⟨⟨hadds.1, hdeletes.1⟩, ?_, ?_⟩
  · exact hadditions hnamed.separate
      (fun a ha _ _ _ _ => Batch.stable_of_namesIn rfl (hnames a ha)) hdistinguishes
      (by simpa using hadds.2)
  · have hwrites : ∀ e ∈ (deleteEntries {} b.tree entries).failures, e.isWrite = false := by
      simpa using hdeletes.2
    exact hdeletions entries hnamed.proper.closed hfiles hwrites

end TranslationAudit
