import TranslationAudit.Command.Unused
import TranslationAudit.Proofs.Catalog.Remove
import TranslationAudit.Proofs.Reconcile
import TranslationAudit.Proofs.Sweep

/-! # Deleting what is unused

* `Catalog.Document.Deletable`: identifiers that can be deleted from a catalog for good.
* `Catalog.deleteFrom_spec`: what a deletion from one catalog does to all of them.
* `Deletion`: a run that deletes the unused entries, as in `Deletion.ofSweep`; `Deletion.lacks`
  tells what is left in each file.
* `Deletion.deletes_unused`: in the files that were written just the unused entries are gone.
-/

namespace TranslationAudit

namespace Catalog

/-! ## Deletions from one catalog -/

/-- Identifiers that can be deleted for good: no single unit among them is taken for a form, and
what repeats an identifier still stands behind a unit of that identifier. -/
structure Document.Deletable (layout : Layout) (d : Document) (ids : List String) : Prop where
  clear : d.Clear ids
  kept : Document.KeepsRepeats layout d (d.removeAll ids).1

section DeleteFrom

variable {settings : WriterSettings} {o : WriteOutcome} {path other : String} {first : Entry}
variable {ids : List String} {d : Document} {t t' : FileTree}

/-- A file of which just some identifiers of a catalog are gone. -/
def Lacks (t : FileTree) (path : String) (d : Document) (ids : List String) : Prop :=
  ∃ d', Holds t path d' ∧ ∀ id, d'.HasUnit id ↔ d.HasUnit id ∧ id ∉ ids

theorem Holds.without (h : Holds t path d) (hunits : ∀ id ∈ ids, d.HasUnit id)
    (hnodup : ids.Nodup) (hclear : d.Clear ids) :
    d.Edited (d.removeAll ids).1 ∧
      ∀ id, (d.removeAll ids).1.HasUnit id ↔ d.HasUnit id ∧ id ∉ ids := by
  obtain ⟨hsound, hasRead⟩ := h.sound
  have hrefl := Document.edited_refl hasRead hsound h.keyed.distinct
  have hedited := Document.edited_removeAll ids hrefl
  have hwithout := Document.without_removeAll ids hrefl hunits hnodup hclear
  exact ⟨hedited, fun id => hwithout.unit h.keyed hedited.keyed⟩

theorem Holds.removeAll_of_render {layout : Layout} {header : Header} (h : Holds t path d)
    (hunits : ∀ id ∈ ids, d.HasUnit id) (hnodup : ids.Nodup) (hdeletable : d.Deletable layout ids)
    (hread : t'.read other = .ok (render layout (d.removeAll ids).1 header)) :
    Lacks t' other d ids := by
  obtain ⟨hedited, hwithout⟩ := h.without hunits hnodup hdeletable.clear
  obtain ⟨d', hd', hsingles, hforms, -⟩ := h.of_render hedited hdeletable.kept hread
  refine ⟨d', hd', ?_⟩
  intro id
  rw [← hwithout id, hd'.keyed.hasUnit_iff, hedited.keyed.hasUnit_iff]
  simp only [hsingles, hforms]

theorem failures_of_deleteFrom (hdry : settings.dryRun = false)
    (h : (deleteFrom settings o path first ids).failures = []) : o.failures = [] := by
  rw [deleteFrom_eq_revise] at h
  exact failures_of_revise hdry h

/-- A deletion from one catalog takes just its identifiers away, and leaves all other files. -/
theorem deleteFrom_spec (hdry : settings.dryRun = false) (h : Holds o.tree path d)
    (hunits : ∀ id ∈ ids, d.HasUnit id) (hnodup : ids.Nodup)
    (hdeletable : d.Deletable settings.layout ids)
    (hok : (deleteFrom settings o path first ids).failures = []) :
    Lacks (deleteFrom settings o path first ids).tree path d ids ∧
      ∀ other e, Holds o.tree other e →
        (deleteFrom settings o path first ids).tree.place other = o.tree.place other ∧
          (o.tree.place path ≠ o.tree.place other →
            Holds (deleteFrom settings o path first ids).tree other e) := by
  rw [deleteFrom_eq_revise] at hok ⊢
  rcases revise_cases hdry with ⟨e, hfail⟩ | ⟨e, hload, hwritten⟩
  · rw [hfail] at hok
    simp [WriteOutcome.fail] at hok
  · obtain rfl := h.eq_of_load hload
    rcases hwritten with ⟨hnot, hsame⟩ | ⟨hsave, -⟩
    · rw [hsame]
      have hwithout := (h.without hunits hnodup hdeletable.clear).2
      rw [Document.removeAll_eq_of_not_changed ids hnot] at hwithout
      exact ⟨⟨d, h, hwithout⟩, fun other e he => ⟨rfl, fun _ => he⟩⟩
    · obtain ⟨text, hread, -⟩ := id h
      refine ⟨h.removeAll_of_render hunits hnodup hdeletable (FileTree.read_save hread hsave), ?_⟩
      intro other e he
      obtain ⟨hplace, hholds⟩ := he.save (.inl ⟨text, hread⟩) hsave
      exact ⟨hplace, fun hne => hholds.resolve_right fun hsame => hne hsame.1⟩

end DeleteFrom

theorem coherent_indexOf {filters : Filters} {fallbacks paths : List String} {t : FileTree} :
    (indexOf filters fallbacks paths t).Coherent := by
  apply Index.coherent_buildIndex
  intro c hc d hd
  obtain ⟨-, -, hdocument⟩ := mem_loadCatalogs.1 hc
  rw [hdocument] at hd
  exact Document.keyed_of_load hd

/-! ## Deletions from several catalogs -/

def deleteGroup (settings : WriterSettings) (o : WriteOutcome) (group : List Entry) :
    WriteOutcome :=
  match group with
  | [] => o
  | first :: _ =>
    if o.tree.isFile first.file then
      deleteFrom settings o first.file first (group.map fun e => e.key.id)
    else o

theorem failures_of_deleteGroup {settings : WriterSettings} {o : WriteOutcome} {group : List Entry}
    (hdry : settings.dryRun = false) (h : (deleteGroup settings o group).failures = []) :
    o.failures = [] := by
  unfold deleteGroup at h
  split at h
  · exact h
  · split at h
    · exact failures_of_deleteFrom hdry h
    · exact h

end Catalog

open Catalog (Document Entry Filters Holds Index Lacks Listed WriteOutcome WriterSettings indexOf)

/-- A run that deletes unused entries from the catalogs in files. -/
structure Deletion where
  references : ReferenceIndex
  scope : Scope
  filters : Filters
  fallbacks : List String
  /-- The files in which catalogs are looked for. -/
  paths : List String
  settings : WriterSettings
  tree : FileTree

namespace Deletion

def index (u : Deletion) : Index := indexOf u.filters u.fallbacks u.paths u.tree

def unused (u : Deletion) : List Entry := unusedEntries u.references u.index u.scope

def outcome (u : Deletion) : WriteOutcome := Catalog.deleteEntries u.settings u.tree u.unused

def indexAfter (u : Deletion) : Index := indexOf u.filters u.fallbacks u.paths u.outcome.tree

/-- The identifiers of the unused entries of a file. -/
def idsIn (u : Deletion) (path : String) : List String :=
  (u.unused.filter fun e => e.file = path).map fun e => e.key.id

/-- The run of a sweep that deletes what none of the references it found uses. -/
def ofSweep (env : Project.Environment) (o : UnusedOptions) (p : Project) (scope : Scope)
    (references : ReferenceIndex) : Deletion where
  references
  scope
  filters := p.filters
  fallbacks := p.config.fallbackLocales
  paths := p.catalogFiles
  settings := p.writerSettings o.dryRun true
  tree := env.tree

/-- What a sweep that deletes does to the files. It leaves them as they are if it stops. -/
theorem tree_sweepProject (env : Project.Environment) {o : UnusedOptions}
    (hdelete : o.delete = true) (p : Project) (scope : Scope) :
    (Command.sweepProject env o p scope).tree =
      match p.references? env.tree with
      | none => env.tree
      | some references => (ofSweep env o p scope references).outcome.tree := by
  unfold Command.sweepProject
  cases p.references? env.tree with
  | none => rfl
  | some references =>
    simp only [hdelete, Bool.true_and]
    by_cases hempty : (unusedEntries references (p.catalogs env.tree) scope).isEmpty = true
    · have hnil : (ofSweep env o p scope references).unused = [] := List.isEmpty_iff.1 hempty
      rw [if_neg (by simp [hempty]), outcome, hnil]
      rfl
    · rw [if_pos (by simp [hempty])]
      rfl

/-- Runs that write without failures to catalogs from which entries can be deleted, where each
location has one file, and each file one path. -/
structure Regular (u : Deletion) : Prop where
  writes : u.settings.dryRun = false
  readable : ∀ path l, Listed u.filters u.paths path l →
    ∃ d, Holds u.tree path d ∧ d.Deletable u.settings.layout (u.idsIn path)
  location : ∀ path other l, Listed u.filters u.paths path l → Listed u.filters u.paths other l →
    path = other
  place : ∀ path other l m, Listed u.filters u.paths path l → Listed u.filters u.paths other m →
    u.tree.place path = u.tree.place other → path = other
  succeeds : u.outcome.failures = []

variable {u : Deletion}

/-! ## Unused entries by file -/

theorem entry?_of_mem_unused {e : Entry} (he : e ∈ u.unused) :
    u.index.entry? e.locale e.key = some e :=
  Catalog.coherent_indexOf.mem_values.1 (List.mem_of_mem_filter he)

theorem listed_of_mem_unused {e : Entry} (he : e ∈ u.unused) :
    Listed u.filters u.paths e.file ⟨e.locale, e.key.package, e.key.source⟩ ∧
      ∃ d, Document.load u.tree e.file = .ok d ∧ d.HasUnit e.key.id :=
  (Catalog.indexOf_entry? (entry?_of_mem_unused he)).2

theorem mem_idsIn {path id : String} :
    id ∈ u.idsIn path ↔ ∃ e ∈ u.unused, e.file = path ∧ e.key.id = id := by
  simp [idsIn, and_assoc]

theorem hasUnit_of_mem_idsIn {path id : String} {d : Document} (hd : Holds u.tree path d)
    (hid : id ∈ u.idsIn path) : d.HasUnit id := by
  obtain ⟨e, he, rfl, rfl⟩ := mem_idsIn.1 hid
  obtain ⟨-, d', hload, hunit⟩ := listed_of_mem_unused he
  obtain rfl := hd.eq_of_load hload
  exact hunit

/-- Entries of one file with one identifier are one entry. -/
theorem eq_of_file {e e' : Entry} (he : e ∈ u.unused) (he' : e' ∈ u.unused)
    (hfile : e.file = e'.file) (hid : e.key.id = e'.key.id) : e = e' := by
  have hlocation := (listed_of_mem_unused he).1.location
  rw [hfile, (listed_of_mem_unused he').1.location] at hlocation
  have hget := entry?_of_mem_unused he
  have hget' := entry?_of_mem_unused he'
  have hkey : e.localKey = e'.localKey := by
    obtain ⟨locale, ⟨package, source, id⟩, file, _, _, _⟩ := e
    obtain ⟨locale', ⟨package', source', id'⟩, file', _, _, _⟩ := e'
    cases hlocation
    cases hid
    rfl
  have hsame : u.index.entries.get? e.localKey = u.index.entries.get? e'.localKey := by rw [hkey]
  have heq := (hget.symm.trans hsame).trans hget'
  cases heq
  rfl

theorem nodup_idsIn (path : String) : (u.idsIn path).Nodup := by
  have hnodup : u.unused.Nodup := Catalog.coherent_indexOf.nodup_values.filter _
  refine List.Nodup.map_on ?_ (hnodup.filter _)
  intro e he e' he' hid
  obtain ⟨he, hfile⟩ := List.mem_filter.1 he
  obtain ⟨he', hfile'⟩ := List.mem_filter.1 he'
  have hsame : e.file = e'.file := (of_decide_eq_true hfile).trans (of_decide_eq_true hfile').symm
  exact eq_of_file he he' hsame hid

/-- The unused entries of each file, by the components of its path. -/
def groups (u : Deletion) : List (List Path.Component × List Entry) :=
  (Dict.groupBy (fun e : Entry => Path.components e.file) u.unused).entries

def deleteGroup (u : Deletion) (o : WriteOutcome) (group : List Path.Component × List Entry) :
    WriteOutcome :=
  Catalog.deleteGroup u.settings o group.2

theorem outcome_eq (u : Deletion) :
    u.outcome = u.groups.foldl u.deleteGroup { tree := u.tree } := by
  have hvalues : u.outcome = (u.groups.map Prod.snd).foldl (Catalog.deleteGroup u.settings)
      { tree := u.tree } := rfl
  rw [hvalues, List.foldl_map]
  rfl

theorem mem_groups {k : List Path.Component} {group : List Entry} :
    (k, group) ∈ u.groups ↔
      group ≠ [] ∧ group = u.unused.filter fun e => Path.components e.file = k :=
  Dict.mem_entries_groupBy (fun e : Entry => Path.components e.file) u.unused

section Run

variable (h : u.Regular)
include h

theorem eq_of_components {path other : String} {l m : Catalog.Location}
    (hpath : Listed u.filters u.paths path l) (hother : Listed u.filters u.paths other m)
    (hsame : Path.components path = Path.components other) : path = other := by
  refine h.place path other l m hpath hother ?_
  unfold FileTree.place
  rw [hsame]

/-- A group are the unused entries of a file. -/
theorem group_eq {k : List Path.Component} {group : List Entry} (hgroup : (k, group) ∈ u.groups) :
    ∃ first rest, group = first :: rest ∧ first ∈ u.unused ∧ Path.components first.file = k ∧
      group.map (fun e => e.key.id) = u.idsIn first.file := by
  obtain ⟨hne, hfilter⟩ := mem_groups.1 hgroup
  cases hcases : group with
  | nil => exact absurd hcases hne
  | cons first rest =>
    have hfirst : first ∈ u.unused.filter fun e => Path.components e.file = k := by
      rw [← hfilter, hcases]
      exact List.mem_cons_self
    obtain ⟨hfirst, hk⟩ := List.mem_filter.1 hfirst
    have hk := of_decide_eq_true hk
    refine ⟨first, rest, rfl, hfirst, hk, ?_⟩
    have hsame : u.unused.filter (fun e => Path.components e.file = k) =
        u.unused.filter fun e => e.file = first.file := by
      apply List.filter_congr
      intro e he
      rw [decide_eq_decide, ← hk]
      refine ⟨?_, fun hfile => by rw [hfile]⟩
      exact eq_of_components h (listed_of_mem_unused he).1 (listed_of_mem_unused hfirst).1
    rw [← hcases, hfilter, hsame]
    rfl

/-- The files after the groups of some paths: these have lost their unused entries, and all others
are as they were. -/
structure Stage (u : Deletion) (done : List (List Path.Component)) (t : FileTree) : Prop where
  place : ∀ path l, Listed u.filters u.paths path l → t.place path = u.tree.place path
  before : ∀ path l d, Listed u.filters u.paths path l → Holds u.tree path d →
    Path.components path ∉ done → Holds t path d
  after : ∀ path l d, Listed u.filters u.paths path l → Holds u.tree path d →
    Path.components path ∈ done → Lacks t path d (u.idsIn path)

theorem Stage.holds {done : List (List Path.Component)} {t : FileTree} (hstage : u.Stage done t)
    {path : String} {l : Catalog.Location} (hlisted : Listed u.filters u.paths path l) :
    ∃ e, Holds t path e := by
  obtain ⟨d, hd, -⟩ := h.readable path l hlisted
  by_cases hdone : Path.components path ∈ done
  · obtain ⟨d', hd', -⟩ := hstage.after path l d hlisted hd hdone
    exact ⟨d', hd'⟩
  · exact ⟨d, hstage.before path l d hlisted hd hdone⟩

theorem stage_group {done : List (List Path.Component)} {o : WriteOutcome}
    (hstage : u.Stage done o.tree) {k : List Path.Component} {group : List Entry}
    (hgroup : (k, group) ∈ u.groups) (hk : k ∉ done)
    (hok : (u.deleteGroup o (k, group)).failures = []) :
    u.Stage (k :: done) (u.deleteGroup o (k, group)).tree := by
  obtain ⟨first, rest, hfirst, hmem, hcomponents, hids⟩ := group_eq h hgroup
  obtain ⟨hlisted, -⟩ := listed_of_mem_unused hmem
  obtain ⟨d, hd, hdeletable⟩ := h.readable first.file _ hlisted
  have hbefore := hstage.before first.file _ d hlisted hd (hcomponents ▸ hk)
  have hdelete : u.deleteGroup o (k, group) =
      Catalog.deleteFrom u.settings o first.file first (u.idsIn first.file) := by
    have hfile : o.tree.isFile first.file = true := hbefore.isFile
    unfold deleteGroup Catalog.deleteGroup
    simp only [hfirst, hfile, if_true]
    rw [← hids, hfirst]
  rw [hdelete] at hok ⊢
  obtain ⟨hlacks, hothers⟩ := Catalog.deleteFrom_spec h.writes hbefore
    (fun id hid => hasUnit_of_mem_idsIn hd hid) (nodup_idsIn first.file) hdeletable hok
  -- another file lies in another place
  have hapart {path : String} {l : Catalog.Location} (hpath : Listed u.filters u.paths path l)
      (hne : Path.components path ≠ k) : o.tree.place first.file ≠ o.tree.place path := by
    rw [hstage.place _ _ hlisted, hstage.place _ _ hpath]
    intro hsame
    rw [h.place _ _ _ _ hlisted hpath hsame] at hcomponents
    exact hne hcomponents
  refine ⟨?_, ?_, ?_⟩
  · intro path l hpath
    obtain ⟨e, he⟩ := hstage.holds h hpath
    exact (hothers path e he).1.trans (hstage.place path l hpath)
  · intro path l e hpath he hnot
    obtain ⟨hne, hnot⟩ := not_or.1 (List.mem_cons.not.1 hnot)
    have he' := hstage.before path l e hpath he hnot
    exact (hothers path e he').2 (hapart hpath hne)
  · intro path l e hpath he hin
    by_cases hk : Path.components path = k
    · obtain rfl := eq_of_components h hpath hlisted (hk.trans hcomponents.symm)
      obtain rfl := he.unique hd
      exact hlacks
    · have hdone := (List.mem_cons.1 hin).resolve_left hk
      obtain ⟨e', he', hunits⟩ := hstage.after path l e hpath he hdone
      exact ⟨e', (hothers path e' he').2 (hapart hpath hk), hunits⟩

theorem stage_foldl {groups : List (List Path.Component × List Entry)}
    (hgroups : ∀ group ∈ groups, group ∈ u.groups) (hnodup : (groups.map Prod.fst).Nodup)
    {done : List (List Path.Component)} (hdone : ∀ k ∈ groups.map Prod.fst, k ∉ done)
    {o : WriteOutcome} (hstage : u.Stage done o.tree)
    (hok : (groups.foldl u.deleteGroup o).failures = []) :
    u.Stage ((groups.map Prod.fst).reverse ++ done) (groups.foldl u.deleteGroup o).tree := by
  induction groups generalizing done o with
  | nil => exact hstage
  | cons group groups ih =>
    obtain ⟨k, entries⟩ := group
    rw [List.map_cons, List.nodup_cons] at hnodup
    have hrest : ∀ group ∈ groups, group ∈ u.groups := fun g hg =>
      hgroups g (List.mem_cons_of_mem _ hg)
    have hokGroup : (u.deleteGroup o (k, entries)).failures = [] :=
      Catalog.failures_of_foldl (fun _ _ => Catalog.failures_of_deleteGroup h.writes) groups hok
    have hstage' := stage_group h hstage (hgroups _ List.mem_cons_self)
      (hdone k List.mem_cons_self) hokGroup
    -- the groups have different paths, so those that follow are still to be done
    have hdone' : ∀ j ∈ groups.map Prod.fst, j ∉ k :: done := by
      intro j hj hin
      rcases List.mem_cons.1 hin with rfl | hin
      · exact hnodup.1 hj
      · exact hdone j (List.mem_cons_of_mem k hj) hin
    have hfinal := ih hrest hnodup.2 hdone' hstage' hok
    rw [List.map_cons, List.reverse_cons, List.append_assoc, List.foldl_cons]
    exact hfinal

/-- Each file has lost just its unused entries. -/
theorem lacks {path : String} {l : Catalog.Location} {d : Document}
    (hlisted : Listed u.filters u.paths path l) (hd : Holds u.tree path d) :
    Lacks u.outcome.tree path d (u.idsIn path) := by
  have hnodup : (u.groups.map Prod.fst).Nodup :=
    Dict.distinct_groupBy (fun e : Entry => Path.components e.file) u.unused
  have hstart : u.Stage [] u.tree :=
    ⟨fun _ _ _ => rfl, fun _ _ _ _ he _ => he, fun _ _ _ _ _ hin => nomatch hin⟩
  have hsucceeds := h.succeeds
  rw [outcome_eq] at hsucceeds ⊢
  have hdone : ∀ k ∈ u.groups.map Prod.fst, k ∉ ([] : List (List Path.Component)) :=
    fun _ _ => List.not_mem_nil
  have hstage := stage_foldl h (fun _ hgroup => hgroup) hnodup hdone (o := { tree := u.tree })
    hstart hsucceeds
  rw [List.append_nil] at hstage
  by_cases hdone : Path.components path ∈ (u.groups.map Prod.fst).reverse
  · exact hstage.after path l d hlisted hd hdone
  · -- no entry of the file is unused
    refine ⟨d, hstage.before path l d hlisted hd hdone, ?_⟩
    have hnone : u.idsIn path = [] := by
      rw [List.eq_nil_iff_forall_not_mem]
      intro id hid
      obtain ⟨e, he, rfl, -⟩ := mem_idsIn.1 hid
      apply hdone
      have hin : e ∈ u.unused.filter fun e' => Path.components e'.file = Path.components e.file :=
        List.mem_filter.2 ⟨he, by simp⟩
      have hgroup := mem_groups.2 ⟨List.ne_nil_of_mem hin, rfl⟩
      exact List.mem_reverse.2 (List.mem_map_of_mem (f := Prod.fst) hgroup)
    simp [hnone]

/-! ## What is left -/

/-- Just the unused entries are gone from the index. -/
theorem entry?_after (locale : String) (key : Key) :
    u.indexAfter.entry? locale key ≠ none ↔
      ∃ e, u.index.entry? locale key = some e ∧ e ∉ u.unused := by
  constructor
  · intro hsome
    obtain ⟨e', he'⟩ := Option.ne_none_iff_exists'.1 hsome
    obtain ⟨-, hlisted, d', hload, hunit⟩ := Catalog.indexOf_entry? he'
    obtain ⟨d, hd, -⟩ := h.readable _ _ hlisted
    obtain ⟨d'', hd'', hunits⟩ := lacks h hlisted hd
    obtain rfl := hd''.eq_of_load hload
    obtain ⟨hbefore, hnot⟩ := (hunits key.id).1 hunit
    have hsomeBefore := Catalog.indexOf_entry_ne_none u.fallbacks hlisted hd.load hbefore
    obtain ⟨e, he⟩ := Option.ne_none_iff_exists'.1 hsomeBefore
    refine ⟨e, he, ?_⟩
    intro hunused
    obtain ⟨hkey, hlistedBefore, -⟩ := Catalog.indexOf_entry? he
    apply hnot
    -- the location has one file, so the entry is one of that file
    refine mem_idsIn.2 ⟨e, hunused, h.location _ _ _ hlistedBefore hlisted, ?_⟩
    exact congrArg (fun k => k.key.id) hkey
  · rintro ⟨e, he, hused⟩
    obtain ⟨hkey, hlisted, d, hload, hunit⟩ := Catalog.indexOf_entry? he
    obtain ⟨d', hd, -⟩ := h.readable _ _ hlisted
    obtain rfl := hd.eq_of_load hload
    obtain ⟨d'', hd'', hunits⟩ := lacks h hlisted hd
    apply Catalog.indexOf_entry_ne_none u.fallbacks hlisted hd''.load
    refine (hunits key.id).2 ⟨hunit, ?_⟩
    intro hid
    obtain ⟨e', he', hfile, hid⟩ := mem_idsIn.1 hid
    have hlisted' := (listed_of_mem_unused he').1
    rw [hfile] at hlisted'
    have hlocation := hlisted'.location.symm.trans hlisted.location
    have hentry := entry?_of_mem_unused he'
    have hsame : e'.localKey = ⟨locale, key⟩ := by
      obtain ⟨_, ⟨_, _, _⟩, _, _, _, _⟩ := e'
      cases hlocation
      cases hid
      rfl
    have hget : u.index.entries.get? e'.localKey = some e := by
      rw [hsame]
      exact he
    have heq := hentry.symm.trans hget
    cases heq
    exact hused he'

/-- In the files that were written no entry is unused, and just the unused entries are gone. -/
theorem deletes_unused :
    unusedEntries u.references u.indexAfter u.scope = [] ∧
      ∀ locale key, u.indexAfter.entry? locale key ≠ none ↔
        ∃ e, u.index.entry? locale key = some e ∧ e ∉ u.unused := by
  refine ⟨?_, entry?_after h⟩
  unfold unusedEntries
  rw [List.filter_eq_nil_iff]
  intro e he hunused
  have hget := Catalog.coherent_indexOf.mem_values.1 he
  have hsome : u.indexAfter.entry? e.locale e.key ≠ none := Option.ne_none_iff_exists'.2 ⟨e, hget⟩
  obtain ⟨e', he', hused⟩ := (entry?_after h e.locale e.key).1 hsome
  obtain ⟨hkey, -⟩ := Catalog.indexOf_entry? he'
  have hlocale : e'.locale = e.locale := congrArg Catalog.LocalKey.locale hkey
  have hkey : e'.key = e.key := congrArg Catalog.LocalKey.key hkey
  apply hused
  -- whether an entry is unused depends on its key only
  rw [← hlocale, ← hkey] at hunused he'
  exact List.mem_filter.2 ⟨Catalog.coherent_indexOf.mem_values.2 he', hunused⟩

end Run

/-! ## Runs on one catalog -/

/-- Whether a catalog holds units only, and none of some identifiers is that of a unit and read as
one of a form. -/
def isPlain (d : Document) (ids : List String) : Bool :=
  (d.body.all fun n => match n with
    | .unit _ => true
    | .foreign _ => false) &&
  ids.all fun id => (splitPluralForm id).isNone || (d.units.get? id).isNone

theorem deletable_of_isPlain {layout : Catalog.Layout} {d : Document} {ids : List String}
    (h : isPlain d ids = true) : d.Deletable layout ids := by
  obtain ⟨hbody, hids⟩ := (Bool.and_eq_true _ _).mp h
  refine ⟨?_, ?_⟩
  · rintro id hid ⟨v, hv⟩ base n hsplit
    have hplain := List.all_eq_true.1 hids id hid
    rw [hsplit, hv] at hplain
    cases hplain
  · rintro id ⟨n, e, hn, -⟩
    have hunit := List.all_eq_true.1 hbody _ hn
    cases hunit

/-- A run on one catalog, in which one message is referenced. -/
def ofCatalog (text : String) (r : Reference) : Deletion where
  references := .ofReferences [r]
  scope := {}
  filters := { package := some "app" }
  fallbacks := []
  paths := [mainFile]
  settings := {}
  tree := treeOf text

/-- A unit and a form of a group go, and another form stays. -/
theorem deletes_unused_form :
    let u := ofCatalog ("<x><file><body><trans-unit id='c'/><group id='b' " ++
      "restype='x-gettext-plurals'><trans-unit id='b[0]'/><trans-unit id='b[1]'/></group>" ++
      "</body></file></x>") (message "b[1]" false)
    u.unused.map (·.key.id) = ["b[0]", "c"] ∧
      unusedEntries u.references u.indexAfter u.scope = [] ∧
      ∀ locale key, u.indexAfter.entry? locale key ≠ none ↔
        ∃ e, u.index.entry? locale key = some e ∧ e ∉ u.unused := by
  intro u
  have hchecks : (u.unused.map (·.key.id) = ["b[0]", "c"] ∧
      (u.tree.read mainFile).toOption.any Document.isReadable = true ∧
      ((Document.load u.tree mainFile).toOption.any fun d =>
        isPlain d (u.idsIn mainFile)) = true ∧
      u.outcome.failures.isEmpty = true) := by decide +kernel
  obtain ⟨hunused, hread, hplain, hsucceeds⟩ := hchecks
  have hlisted {path : String} {l : Catalog.Location} (hl : Listed u.filters u.paths path l) :
      path = mainFile := List.mem_singleton.1 hl.mem
  have hregular : u.Regular := by
    refine ⟨rfl, ?_, ?_, ?_, List.isEmpty_iff.1 hsucceeds⟩
    · intro path l hl
      obtain ⟨d, hd⟩ := Catalog.exists_holds hread
      rw [hd.load] at hplain
      rw [hlisted hl]
      exact ⟨d, hd, deletable_of_isPlain hplain⟩
    · intro path other l hl hother
      rw [hlisted hl, hlisted hother]
    · intro path other l m hl hother _
      rw [hlisted hl, hlisted hother]
  exact ⟨hunused, deletes_unused hregular⟩

end Deletion

end TranslationAudit
