import TranslationAudit.Proofs.Batch.Named

/-! # Catalogs that fail alone

* `Batch.file_outcome`: what a run makes of a file is told by the file and by the additions that go
  there.
* `Batch.outcome_without_failing`: a run without the additions that failed does the same.
* `Batch.outcome_of_perm`: additions to different files can be made in any order.
* `Batch.failsAlone`: a catalog that cannot be read or written does not get into the way of
  others.
-/

namespace TranslationAudit

open Catalog (Addition Document Location Stage Visit WriteOutcome unreadable? visitAll)

namespace Batch

variable {b b' : Batch} {place : List String} {group : Location × List Addition}

/-! ## What goes to a file -/

/-- The additions to the catalogs at a place. -/
def routed (b : Batch) (place : List String) : List (Location × List Addition) :=
  b.groups.filter fun group => b.goal? group.1 = some place

/-- What a visit does, but for where. -/
def deed (v : Visit) := (v.header, v.change)

theorem deeds_eq (b : Batch) (place : List String) :
    (b.visits.filter fun v => b.tree.goal v.path = some place).map deed =
      (b.routed place).map fun group => deed (visit b.settings "" group) := by
  unfold visits routed
  induction b.groups with
  | nil => rfl
  | cons group groups ih =>
    rw [List.filterMap_cons]
    cases hpath : b.path? group.1 with
    | none => simpa [goal?, hpath] using ih
    | some path =>
      by_cases hgoal : b.tree.goal path = some place
      · simpa [goal?, hpath, hgoal, visit, deed] using ih
      · simpa [goal?, hpath, hgoal, visit] using ih

theorem goal_of_mem_routed (h : group ∈ b.routed place) :
    ∃ v ∈ b.visits, b.tree.goal v.path = some place := by
  obtain ⟨hgroup, hgoal⟩ := List.mem_filter.1 h
  obtain ⟨path, hpath, hplace⟩ := Option.bind_eq_some_iff.1 (of_decide_eq_true hgoal)
  exact ⟨_, mem_visits.2 ⟨group, hgroup, path, hpath, rfl⟩, hplace⟩

/-- Files to which no additions go are as they were. -/
theorem file_of_not_routed (h : b.Separate) (hnone : b.routed place = []) {n : FileNode}
    (hfile : n.isDirectory = false) :
    b.outcome.tree.node? place = some n ↔ b.tree.node? place = some n := by
  rw [outcome_eq h]
  refine Catalog.file_of_untouched b.settings (unhindered_visits h).leads (.refl h.proper.closed) ?_
    hfile
  intro path htouched hgoal
  rcases Catalog.exists_of_mem_touched htouched with hnil | ⟨v, hv, rfl⟩
  · cases hnil
  · obtain ⟨group, hgroup, path, hpath, rfl⟩ := mem_visits.1 hv
    have hplace : b.goal? group.1 = some place := by
      rw [goal?, hpath]
      exact hgoal
    have hmem : group ∈ b.routed place := List.mem_filter.2 ⟨hgroup, decide_eq_true hplace⟩
    rw [hnone] at hmem
    cases hmem

theorem agrees_outcome (h : b.Separate) (h' : b'.Separate) (hsettings : b'.settings = b.settings)
    (hrouted : b'.routed place = b.routed place) (hne : b.routed place ≠ [])
    (hagrees : b.tree.Agrees b'.tree place) : b.outcome.tree.Agrees b'.outcome.tree place := by
  have hfiltered {b : Batch} (h : b.Separate) (hne : b.routed place ≠ []) :
      b.outcome.tree.Agrees (visitAll b.settings { tree := b.tree }
        (b.visits.filter fun v => b.tree.goal v.path = some place)).tree place := by
    obtain ⟨group, hgroup⟩ := List.exists_mem_of_ne_nil _ hne
    obtain ⟨v, hv, hplace⟩ := goal_of_mem_routed hgroup
    have hunhindered := unhindered_visits h
    rw [outcome_eq h]
    exact Catalog.agrees_filter b.settings (hunhindered.clear hv hplace) hunhindered.leads
      (.refl hunhindered.closed) (.refl hunhindered.closed) (.refl b.tree place)
  have hsame : (b'.visits.filter fun v => b'.tree.goal v.path = some place).map deed =
      (b.visits.filter fun v => b.tree.goal v.path = some place).map deed := by
    rw [deeds_eq, deeds_eq, hrouted, hsettings]
  have hgoals (b : Batch) : ∀ v ∈ b.visits.filter fun v => b.tree.goal v.path = some place,
      b.tree.goal v.path = some place := fun v hv =>
    of_decide_eq_true (List.mem_filter.1 hv).2
  have hstart (b : Batch) (h : b.Separate) :
      Stage b.tree ({ tree := b.tree } : WriteOutcome).tree := .refl h.proper.closed
  have hmiddle := Catalog.agrees_visitAll b.settings hsame (hgoals b) (hgoals b') (hstart b h)
    (hstart b' h') hagrees
  rw [← hsettings] at hmiddle
  have hend := hfiltered h' (hrouted ▸ hne)
  exact ((hfiltered h hne).trans (hsettings ▸ hmiddle)).trans hend.symm

/-- What a run makes of a file is told by the file and by the additions that go there. -/
theorem file_outcome (h : b.Separate) (h' : b'.Separate) (hsettings : b'.settings = b.settings)
    (hrouted : b'.routed place = b.routed place) (hagrees : b.tree.Agrees b'.tree place)
    {n : FileNode} (hfile : n.isDirectory = false) :
    b'.outcome.tree.node? place = some n ↔ b.outcome.tree.node? place = some n := by
  by_cases hnone : b.routed place = []
  · rw [file_of_not_routed h hnone hfile, file_of_not_routed h' (hrouted.trans hnone) hfile,
      hagrees.node]
  · rw [(agrees_outcome h h' hsettings hrouted hnone hagrees).node]

/-! ## Without what fails -/

/-- The same run with other additions. -/
def withAdditions (b : Batch) (additions : List Addition) : Batch := { b with additions }

/-- The locations of the groups that fail as a run goes through them. -/
def failingFrom (b : Batch) (o : WriteOutcome) : List (Location × List Addition) → List Location
  | [] => []
  | group :: groups =>
    if (b.step { tree := o.tree } group).failures.isEmpty then
      b.failingFrom (b.step o group) groups
    else group.1 :: b.failingFrom (b.step o group) groups

/-- The locations at which a run fails. -/
def failing (b : Batch) : List Location := b.failingFrom { tree := b.tree } b.groups

theorem step_eq_join (b : Batch) (o : WriteOutcome) (group : Location × List Addition) :
    b.step o group = o.join (b.step { tree := o.tree } group) := by
  unfold step Catalog.writeGroup
  cases Catalog.additionPath? o.tree b.base b.roots b.index group.1 with
  | none => simp [WriteOutcome.join]
  | some path => exact Visit.run_eq_join b.settings o (visit b.settings path group)

theorem failures_step (b : Batch) (t : FileTree) (group : Location × List Addition) :
    (b.step { tree := t } group).failures = [] ∨
      ∃ e, b.step { tree := t } group = { tree := t, failures := [e] } := by
  unfold step Catalog.writeGroup
  cases Catalog.additionPath? t b.base b.roots b.index group.1 with
  | none => exact .inl rfl
  | some path => exact Visit.failures_alone b.settings t (visit b.settings path group)

/-- Outcomes but for the failures. -/
structure SameFiles (o o' : WriteOutcome) : Prop where
  tree : o'.tree = o.tree
  touched : o'.touched = o.touched

theorem touched_foldl_record {o o' : WriteOutcome} (h : o'.touched = o.touched)
    (paths : List String) :
    (paths.foldl WriteOutcome.record o').touched = (paths.foldl WriteOutcome.record o).touched := by
  induction paths generalizing o o' with
  | nil => exact h
  | cons path paths ih =>
    refine ih ?_
    rw [Catalog.touched_record, Catalog.touched_record, h]

theorem SameFiles.step {o o' : WriteOutcome} (h : SameFiles o o')
    (group : Location × List Addition) : SameFiles (b.step o group) (b.step o' group) := by
  rw [step_eq_join b o, step_eq_join b o', h.tree]
  exact ⟨rfl, touched_foldl_record h.touched _⟩

theorem mem_of_mem_failingFrom {o : WriteOutcome} {groups : List (Location × List Addition)}
    {l : Location} (h : l ∈ b.failingFrom o groups) : l ∈ groups.map Prod.fst := by
  induction groups generalizing o with
  | nil => cases h
  | cons group groups ih =>
    rw [failingFrom] at h
    split at h
    · exact List.mem_cons_of_mem _ (ih h)
    · rcases List.mem_cons.1 h with rfl | h
      · exact List.mem_cons_self
      · exact List.mem_cons_of_mem _ (ih h)

/-- The groups that do not fail do the same without the others. -/
theorem sameFiles_foldl {o o' : WriteOutcome} (h : SameFiles o o') (hok : o'.failures = [])
    {groups : List (Location × List Addition)} (hdistinct : (groups.map Prod.fst).Nodup) :
    SameFiles (groups.foldl b.step o)
        ((groups.filter fun group => group.1 ∉ b.failingFrom o groups).foldl b.step o') ∧
      ((groups.filter fun group => group.1 ∉ b.failingFrom o groups).foldl b.step o').failures =
        [] := by
  induction groups generalizing o o' with
  | nil => exact ⟨h, hok⟩
  | cons group groups ih =>
    obtain ⟨hnew, hdistinct⟩ := List.nodup_cons.1 hdistinct
    have hjoin := step_eq_join b o group
    rw [List.foldl_cons, failingFrom]
    rcases failures_step b o.tree group with hsucceeds | ⟨e, hfails⟩
    · have hkept : group.1 ∉ b.failingFrom (b.step o group) groups :=
        fun hmem => hnew (mem_of_mem_failingFrom hmem)
      have hok' : (b.step o' group).failures = [] := by
        rw [step_eq_join, h.tree]
        simp [WriteOutcome.join, hok, hsucceeds]
      simp only [hsucceeds, List.isEmpty_nil, if_true]
      rw [List.filter_cons_of_pos (by simpa using hkept), List.foldl_cons]
      exact ih (h.step group) hok' hdistinct
    · -- the groups to come have other locations
      have hothers : groups.filter (fun g => g.1 ∉ group.1 :: b.failingFrom (b.step o group) groups) =
          groups.filter fun g => g.1 ∉ b.failingFrom (b.step o group) groups := by
        apply List.filter_congr
        intro g hg
        have hne : g.1 ≠ group.1 := fun heq => hnew (heq ▸ List.mem_map_of_mem hg)
        simp [hne]
      have hsame : SameFiles (b.step o group) o' := by
        rw [hjoin, hfails]
        exact ⟨h.tree, h.touched⟩
      simp only [hfails, List.isEmpty_cons, Bool.false_eq_true, if_false]
      rw [List.filter_cons_of_neg (by simp), hothers]
      exact ih hsame hok hdistinct

/-- A run without the additions that failed touches and leaves the same files. -/
theorem outcome_without_failing (b : Batch) :
    (b.withAdditions (b.additions.filter fun a => a.location ∉ b.failing)).outcome =
      { b.outcome with failures := [] } := by
  have hgroups : (b.withAdditions (b.additions.filter fun a => a.location ∉ b.failing)).groups =
      b.groups.filter fun group => group.1 ∉ b.failing := by
    have hfilter := Dict.entries_groupBy_filter Addition.location b.additions
      fun l => decide (l ∉ b.failing)
    exact hfilter
  have hrun : (b.withAdditions (b.additions.filter fun a => a.location ∉ b.failing)).outcome =
      (b.groups.filter fun group => group.1 ∉ b.failing).foldl b.step { tree := b.tree } := by
    rw [outcome_eq_foldl, hgroups]
    rfl
  have hstart : SameFiles { tree := b.tree } { tree := b.tree } := ⟨rfl, rfl⟩
  obtain ⟨⟨htree, htouched⟩, hfailures⟩ := sameFiles_foldl (b := b) hstart rfl
    (Dict.distinct_groupBy Addition.location b.additions)
  rw [hrun, outcome_eq_foldl]
  exact (WriteOutcome.mk.injEq ..).mpr ⟨htree, htouched, hfailures⟩

/-! ## In another order -/

theorem Separate.of_perm (h : b.Separate) {additions : List Addition}
    (hperm : (b.withAdditions additions).groups.Perm b.groups) :
    (b.withAdditions additions).Separate := by
  have hmem : ∀ a ∈ additions, a ∈ b.additions := by
    intro a ha
    have hgroup : (a.location, additions.filter fun a' => a'.location = a.location) ∈
        (b.withAdditions additions).groups :=
      mem_groups.2 ⟨List.ne_nil_of_mem (List.mem_filter.2 ⟨ha, decide_eq_true rfl⟩), rfl⟩
    obtain ⟨-, hsame⟩ := mem_groups.1 (hperm.mem_iff.1 hgroup)
    have hin : a ∈ b.additions.filter fun a' => a'.location = a.location :=
      hsame ▸ List.mem_filter.2 ⟨ha, decide_eq_true rfl⟩
    exact (List.mem_filter.1 hin).1
  refine ⟨h.proper, fun a ha => h.leads a (hmem a ha),
    fun a ha a' ha' => h.apart a (hmem a ha) a' (hmem a' ha'), ?_⟩
  intro a ha hnew hroots root hroot
  obtain ⟨place, hplace, hclear⟩ := h.settled a (hmem a ha) hnew hroots root hroot
  exact ⟨place, hplace, fun a' ha' => hclear a' (hmem a' ha')⟩

/-- Additions to different files can be made in any order. -/
theorem outcome_of_perm (h : b.Separate)
    (hdistinct : b.groups.Pairwise fun g g' =>
      ∀ place, b.goal? g.1 = some place → b.goal? g'.1 ≠ some place)
    {additions : List Addition} (hperm : (b.withAdditions additions).groups.Perm b.groups) :
    (∀ place n, n.isDirectory = false →
      ((b.withAdditions additions).outcome.tree.node? place = some n ↔
        b.outcome.tree.node? place = some n)) ∧
    (b.withAdditions additions).outcome.touched.Perm b.outcome.touched ∧
    (b.withAdditions additions).outcome.failures.Perm b.outcome.failures := by
  have h' := h.of_perm hperm
  have hunhindered := unhindered_visits h
  have hvisits : (b.withAdditions additions).visits.Perm b.visits := hperm.filterMap _
  have hvisitsDistinct : b.visits.Pairwise fun v w => b.tree.goal v.path ≠ b.tree.goal w.path := by
    unfold visits
    rw [List.pairwise_filterMap]
    refine hdistinct.imp_of_mem ?_
    intro g g' hg _ hne v hv w hw heq
    obtain ⟨path, hpath, rfl⟩ := Option.map_eq_some_iff.1 hv
    obtain ⟨path', hpath', rfl⟩ := Option.map_eq_some_iff.1 hw
    obtain ⟨place, hplace⟩ := Option.isSome_iff_exists.1
      (hunhindered.leads _ (mem_visits.2 ⟨g, hg, path, hpath, rfl⟩))
    refine hne place ?_ ?_
    · rw [goal?, hpath]
      exact hplace
    · rw [goal?, hpath']
      exact heq.symm.trans hplace
  have hrouted (place : List String) :
      (b.withAdditions additions).routed place = b.routed place := by
    have hsome : ((b.withAdditions additions).routed place).Perm (b.routed place) := hperm.filter _
    have hsingle : (b.routed place).Pairwise fun _ _ => False := by
      refine (hdistinct.filter _).imp_of_mem ?_
      intro g g' hg hg' hne
      exact hne place (of_decide_eq_true (List.mem_filter.1 hg).2)
        (of_decide_eq_true (List.mem_filter.1 hg').2)
    -- no more than one group goes to the place
    rcases hb : b.routed place with _ | ⟨g, _ | ⟨g', rest⟩⟩
    · exact List.perm_nil.1 (hb ▸ hsome)
    · exact List.perm_singleton.1 (hb ▸ hsome)
    · rw [hb] at hsingle
      exact absurd List.mem_cons_self ((List.pairwise_cons.1 hsingle).1 g')
  obtain ⟨htouched, hfailures⟩ := Catalog.visitAll_of_distinct hunhindered b.settings hvisitsDistinct
  obtain ⟨htouched', hfailures'⟩ := Catalog.visitAll_of_distinct (unhindered_visits h') b.settings
    (hvisits.symm.pairwise hvisitsDistinct fun hne => Ne.symm hne)
  refine ⟨fun place n hfile =>
    file_outcome h h' rfl (hrouted place) (.refl b.tree place) hfile, ?_, ?_⟩
  · rw [outcome_eq h', outcome_eq h]
    exact (htouched'.symm ▸ htouched.symm ▸ hvisits.flatMap_right _)
  · rw [outcome_eq h', outcome_eq h]
    exact (hfailures'.symm ▸ hfailures.symm ▸ hvisits.flatMap_right _)

/-! ## Failing alone -/

/-- Runs in which catalogs that fail do not get into the way of others. -/
structure FailsAlone (b : Batch) : Prop where
  /-- What cannot be read is kept. -/
  kept : ∀ group ∈ b.groups, ∀ path, b.path? group.1 = some path →
    unreadable? b.tree path ≠ none → b.outcome.tree.find path = b.tree.find path
  /-- What cannot be read is a failure for each group of additions to it, and for no others. -/
  counted : b.outcome.failures.filter (fun e => (unreadable? b.tree e.path).isSome) =
    b.groups.filterMap fun group => (b.path? group.1).bind (unreadable? b.tree)
  /-- What becomes of a file is told by what lies at its place, and by what is added there. -/
  own : ∀ b' : Batch, b'.Separate → b'.settings = b.settings → ∀ place,
    b'.routed place = b.routed place → b.tree.Agrees b'.tree place →
      ∀ n, n.isDirectory = false →
        (b'.outcome.tree.node? place = some n ↔ b.outcome.tree.node? place = some n)
  /-- Without the groups that fail, files are touched and left as with them. -/
  without : (b.withAdditions (b.additions.filter fun a => a.location ∉ b.failing)).outcome =
    { b.outcome with failures := [] }
  /-- The order of groups that go to different files does not matter. -/
  order : (b.groups.Pairwise fun g g' =>
      ∀ place, b.goal? g.1 = some place → b.goal? g'.1 ≠ some place) →
    ∀ additions, (b.withAdditions additions).groups.Perm b.groups →
      (∀ place n, n.isDirectory = false →
        ((b.withAdditions additions).outcome.tree.node? place = some n ↔
          b.outcome.tree.node? place = some n)) ∧
      (b.withAdditions additions).outcome.touched.Perm b.outcome.touched ∧
      (b.withAdditions additions).outcome.failures.Perm b.outcome.failures

/-- Catalogs that fail do not get into the way of others if none of them has to be made where
another one lies. -/
theorem failsAlone (h : b.Separate) : b.FailsAlone := by
  obtain ⟨hintact, hcounted⟩ := Catalog.failures_of_unreadable (unhindered_visits h) b.settings
  rw [← outcome_eq h] at hintact hcounted
  refine ⟨?_, ?_, ?_, outcome_without_failing b, ?_⟩
  · intro group hgroup path hpath hunreadable
    have hv : visit b.settings path group ∈ b.visits :=
      mem_visits.2 ⟨group, hgroup, path, hpath, rfl⟩
    obtain ⟨place, hplace⟩ := Option.isSome_iff_exists.1 ((unhindered_visits h).leads _ hv)
    have hstage := (underway_outcome h).stage
    exact (hintact _ hv place hplace hunreadable).find h.proper.closed hstage.closed hplace
      (hstage.goal hplace)
  · rw [hcounted, visits, List.filterMap_filterMap]
    apply List.filterMap_congr
    intro group _
    cases b.path? group.1 <;> rfl
  · intro b' h' hsettings place hrouted hagrees n hfile
    exact file_outcome h h' hsettings hrouted hagrees hfile
  · intro hdistinct additions hperm
    exact outcome_of_perm h hdistinct hperm

/-- A catalog that cannot be read stays as it is while another one is made. -/
theorem failsAlone_malformed :
    let b := ofCatalog {} "<x" [("Main", "a"), ("New", "b")]
    (b.outcome.failures.map (·.path) = [mainFile] ∧
      b.outcome.touched = ["/App/Resources/Private/Translations/de/New.xlf"]) ∧ b.FailsAlone := by
  intro b
  have hchecks : (b.outcome.failures.map (·.path) = [mainFile] ∧
      b.outcome.touched = ["/App/Resources/Private/Translations/de/New.xlf"]) ∧ b.Named := by
    decide +kernel
  exact ⟨hchecks.1, failsAlone hchecks.2.separate⟩

end Batch

end TranslationAudit
