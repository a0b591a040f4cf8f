import TranslationAudit.Proofs.Catalog.Files
import TranslationAudit.Proofs.FileTree.Save

/-! # One catalog after the other

Additions and deletions go through catalogs one by one. What happens to each of them is told by its
own file, if no file has to be made where another one lies.

* `Visit`: a change of the catalog in a file; `Visit.alone`: what it does by itself.
* `Visit.alone_cases`: what can happen to a catalog.
* `Visit.agrees_alone`: trees that are alike at a place are treated alike there.
* `Unhindered`: visits to files that do not get into each other's way.
* `agrees_filter`, `agrees_visitAll`: a run does at a place what the visits to the place do there,
  in any tree that is alike at the place.
-/

namespace TranslationAudit.Catalog

/-! ## Reading by other paths -/

section Reading

variable {t t' : FileTree} {path other : String} {d : Document}

theorem find_of_load (h : Document.load t path = .ok d) :
    (∃ text, t.find path = .ok (.text text) ∧ Document.parse path text = .ok d) ∨
      (t.find path = .error .notFound ∧ d = {}) := by
  unfold Document.load FileTree.read at h
  cases hfind : t.find path with
  | error e =>
    rw [hfind] at h
    cases e <;> cases h
    exact .inr ⟨rfl, rfl⟩
  | ok n =>
    rw [hfind] at h
    cases n with
    | text text => exact .inl ⟨text, rfl, h⟩
    | directory => cases h
    | locked => cases h
    | binary bytes => cases h

/-- A catalog that is loaded by one path is loaded by others at which the same is found. -/
theorem load_of_find (h : Document.load t path = .ok d)
    (hfind : t'.find other = t.find path) : Document.load t' other = .ok d := by
  rcases find_of_load h with ⟨text, htext, hparse⟩ | ⟨hnone, rfl⟩
  · unfold Document.load FileTree.read
    rw [hfind, htext]
    exact Document.parse_path hparse other
  · unfold Document.load FileTree.read
    rw [hfind, hnone]

theorem load_congr (hfind : t'.find path = t.find path) :
    Document.load t' path = Document.load t path := by
  unfold Document.load FileTree.read
  rw [hfind]

end Reading

/-! ## Visits -/

/-- A change of the catalog in a file. -/
structure Visit where
  path : String
  header : Document → Header
  change : Document → Document × Bool

namespace WriteOutcome

/-- What happened in a run and in one that went on from its files. -/
def join (o next : WriteOutcome) : WriteOutcome where
  tree := next.tree
  touched := (next.touched.foldl record o).touched
  failures := o.failures ++ next.failures

end WriteOutcome

namespace Visit

variable {settings : WriterSettings} {o : WriteOutcome} {t t' : FileTree} {v : Visit}
variable {place : List String} {d : Document}

def run (settings : WriterSettings) (o : WriteOutcome) (v : Visit) : WriteOutcome :=
  revise settings o v.path v.header v.change

/-- What a visit does to files in which nothing happened yet. -/
def alone (settings : WriterSettings) (t : FileTree) (v : Visit) : WriteOutcome :=
  v.run settings { tree := t }

theorem run_eq_join (settings : WriterSettings) (o : WriteOutcome) (v : Visit) :
    v.run settings o = o.join (v.alone settings o.tree) := by
  have hsame : o = o.join { tree := o.tree } := by simp [WriteOutcome.join]
  have hfail (e : Error) : o.fail e = o.join (WriteOutcome.fail { tree := o.tree } e) := by
    simp [WriteOutcome.join, WriteOutcome.fail]
  have hrecord (t : FileTree) : ({ o with tree := t } : WriteOutcome).record v.path =
      o.join (WriteOutcome.record { tree := t } v.path) := by
    simp only [WriteOutcome.join, WriteOutcome.record, List.any_nil, Bool.false_eq_true, if_false,
      List.nil_append, List.foldl_cons, List.foldl_nil, List.append_nil]
    split <;> rfl
  unfold alone run revise
  simp only
  cases Document.load o.tree v.path with
  | error e => exact hfail e
  | ok d =>
    simp only
    split
    · unfold WriteOutcome.finish
      split
      · exact hrecord o.tree
      · simp only
        cases store o.tree v.path (render settings.layout (v.change d).1 (v.header d)) with
        | error e => exact hfail e
        | ok t => exact hrecord t
    · exact hsame

theorem tree_run (settings : WriterSettings) (o : WriteOutcome) (v : Visit) :
    (v.run settings o).tree = (v.alone settings o.tree).tree := by
  rw [run_eq_join]
  rfl

theorem run_eq_fail {e : Error} (h : v.alone settings o.tree = { tree := o.tree, failures := [e] }) :
    v.run settings o = o.fail e := by
  rw [run_eq_join, h]
  simp [WriteOutcome.join, WriteOutcome.fail]

theorem run_eq_self (h : v.alone settings o.tree = { tree := o.tree }) : v.run settings o = o := by
  rw [run_eq_join, h]
  simp [WriteOutcome.join]

theorem run_eq_record (h : v.alone settings o.tree = { tree := t, touched := [v.path] }) :
    v.run settings o = ({ o with tree := t } : WriteOutcome).record v.path := by
  rw [run_eq_join, h]
  simp only [WriteOutcome.join, WriteOutcome.record, List.foldl_cons, List.foldl_nil,
    List.append_nil]
  split <;> rfl

/-! ## What can happen to a catalog -/

theorem alone_of_error {e : Error} (hload : Document.load t v.path = .error e) :
    v.alone settings t = { tree := t, failures := [e] } := by
  unfold alone run revise
  rw [hload]
  rfl

theorem alone_of_not_changed (hload : Document.load t v.path = .ok d)
    (hnot : (v.change d).2 = false) : v.alone settings t = { tree := t } := by
  unfold alone run revise
  rw [hload]
  simp only [hnot, Bool.false_eq_true, if_false]

theorem alone_of_dry (hdry : settings.dryRun = true) (hload : Document.load t v.path = .ok d)
    (hchanged : (v.change d).2 = true) :
    v.alone settings t = { tree := t, touched := [v.path] } := by
  unfold alone run revise
  rw [hload]
  simp only [hchanged, if_true, WriteOutcome.finish, hdry]
  rfl

theorem alone_of_store (hdry : settings.dryRun = false) (hload : Document.load t v.path = .ok d)
    (hchanged : (v.change d).2 = true) {r : Except Error FileTree}
    (hstore : store t v.path (render settings.layout (v.change d).1 (v.header d)) = r) :
    v.alone settings t = match r with
      | .ok t' => { tree := t', touched := [v.path] }
      | .error e => { tree := t, failures := [e] } := by
  unfold alone run revise
  rw [hload]
  simp only [hchanged, if_true, WriteOutcome.finish, hdry, Bool.false_eq_true, if_false, hstore]
  cases r <;> rfl

/-- No file stands before a catalog that can be read, and no directory in its place. -/
theorem free_of_load (hclosed : t.Closed) {path : String} (hgoal : t.goal path = some place)
    (hload : Document.load t path = .ok d) :
    ¬t.Blocked place ∧ ∀ n, t.node? place = some n → n.isDirectory = false := by
  rcases FileTree.find_cases hclosed hgoal with ⟨n, hn, hfind⟩ | ⟨-, -, hfind⟩ |
    ⟨hnone, hblocked, -⟩
  · refine ⟨FileTree.not_blocked_of_ledTo (hclosed place n hn), ?_⟩
    rcases find_of_load hload with ⟨text, htext, -⟩ | ⟨hnone, -⟩
    · rw [hfind] at htext
      cases htext
      intro m hm
      rw [hn] at hm
      cases hm
      rfl
    · rw [hfind] at hnone
      cases hnone
  · rcases find_of_load hload with ⟨text, htext, -⟩ | ⟨hnone, -⟩
    · rw [hfind] at htext
      cases htext
    · rw [hfind] at hnone
      cases hnone
  · exact ⟨hblocked, by simp [hnone]⟩

/-- A catalog cannot be read, or has nothing to change, or would have to be made in a locked
directory, or is saved. -/
theorem alone_cases (hdry : settings.dryRun = false) (hclosed : t.Closed)
    (hgoal : t.goal v.path = some place) :
    (∃ e, Document.load t v.path = .error e ∧
      v.alone settings t = { tree := t, failures := [e] }) ∨
    ∃ d, Document.load t v.path = .ok d ∧
      (((v.change d).2 = false ∧ v.alone settings t = { tree := t }) ∨
        ((v.change d).2 = true ∧ t.Sealed place ∧
          v.alone settings t = { tree := t, failures := [.write v.path .notFound] }) ∨
        ((v.change d).2 = true ∧ ∃ t',
          t.Saved place (render settings.layout (v.change d).1 (v.header d)) t' ∧
          v.alone settings t = { tree := t', touched := [v.path] })) := by
  cases hload : Document.load t v.path with
  | error e => exact .inl ⟨e, rfl, alone_of_error hload⟩
  | ok d =>
    refine .inr ⟨d, rfl, ?_⟩
    cases hchanged : (v.change d).2 with
    | false => exact .inl ⟨rfl, alone_of_not_changed hload hchanged⟩
    | true =>
      obtain ⟨hblocked, hfree⟩ := free_of_load hclosed hgoal hload
      rcases FileTree.save_cases hclosed hgoal hblocked hfree
        (render settings.layout (v.change d).1 (v.header d)) with ⟨t', hsave, hsaved⟩ |
          ⟨hsealed, hsave⟩
      · have hstore : store t v.path (render settings.layout (v.change d).1 (v.header d)) =
            .ok t' := by
          unfold store
          rw [hsave]
        exact .inr (.inr ⟨rfl, t', hsaved, alone_of_store hdry hload hchanged hstore⟩)
      · have hstore : store t v.path (render settings.layout (v.change d).1 (v.header d)) =
            .error (.write v.path .notFound) := by
          unfold store
          rw [hsave]
        exact .inr (.inl ⟨rfl, hsealed, alone_of_store hdry hload hchanged hstore⟩)

theorem tree_alone_of_dry (hdry : settings.dryRun = true) (t : FileTree) (v : Visit) :
    (v.alone settings t).tree = t := by
  unfold alone run revise
  split
  · rfl
  · split
    · simp only [WriteOutcome.finish, hdry, if_true, tree_record]
    · rfl

/-- A visit leaves the files, or saves the catalog. -/
theorem tree_alone_cases (settings : WriterSettings) (hclosed : t.Closed)
    (hgoal : t.goal v.path = some place) :
    (v.alone settings t).tree = t ∨
      ∃ d, Document.load t v.path = .ok d ∧ ∃ t',
        t.Saved place (render settings.layout (v.change d).1 (v.header d)) t' ∧
        v.alone settings t = { tree := t', touched := [v.path] } := by
  by_cases hdry : settings.dryRun = true
  · exact .inl (tree_alone_of_dry hdry t v)
  · rw [Bool.not_eq_true] at hdry
    rcases alone_cases hdry hclosed hgoal with ⟨e, -, halone⟩ |
      ⟨d, hload, ⟨-, halone⟩ | ⟨-, -, halone⟩ | ⟨-, t', hsaved, halone⟩⟩
    · exact .inl (by rw [halone])
    · exact .inl (by rw [halone])
    · exact .inl (by rw [halone])
    · exact .inr ⟨d, hload, t', hsaved, halone⟩

theorem persists_alone (settings : WriterSettings) (hclosed : t.Closed)
    (hgoal : t.goal v.path = some place) :
    t.Persists (v.alone settings t).tree ∧ (v.alone settings t).tree.Closed := by
  rcases tree_alone_cases settings hclosed hgoal with hsame | ⟨d, -, t', hsaved, halone⟩
  · rw [hsame]
    exact ⟨.refl t, hclosed⟩
  · rw [halone]
    exact ⟨hsaved.persists, hsaved.closed hclosed⟩

/-- A dry visit does what it does to the same catalog in other trees. -/
theorem dry_alone_congr {v' : Visit} (hdry : settings.dryRun = true) (hpath : v'.path = v.path)
    (hchange : v'.change = v.change)
    (hsame : Document.load t' v'.path = Document.load t v.path) :
    (v'.alone settings t').touched = (v.alone settings t).touched ∧
      (v'.alone settings t').failures = (v.alone settings t).failures := by
  cases hload : Document.load t v.path with
  | error e =>
    rw [alone_of_error hload, alone_of_error (hsame.trans hload)]
    exact ⟨rfl, rfl⟩
  | ok d =>
    have hload' := hsame.trans hload
    cases hchanged : (v.change d).2 with
    | false =>
      rw [alone_of_not_changed hload hchanged, alone_of_not_changed hload' (hchange ▸ hchanged)]
      exact ⟨rfl, rfl⟩
    | true =>
      rw [alone_of_dry hdry hload hchanged, alone_of_dry hdry hload' (hchange ▸ hchanged), hpath]
      exact ⟨rfl, rfl⟩

/-- A change of the same kind does the same in trees that are alike at its place. -/
theorem agrees_alone {v' : Visit} (settings : WriterSettings) (hclosed : t.Closed)
    (hclosed' : t'.Closed) (hgoal : t.goal v.path = some place)
    (hgoal' : t'.goal v'.path = some place) (hheader : v'.header = v.header)
    (hchange : v'.change = v.change) (h : t.Agrees t' place) :
    (v.alone settings t).tree.Agrees (v'.alone settings t').tree place ∧
      (v'.path = v.path → (v'.alone settings t').touched = (v.alone settings t).touched ∧
        (v'.alone settings t').failures = (v.alone settings t).failures) := by
  have hfind := h.find hclosed hclosed' hgoal hgoal'
  by_cases hdry : settings.dryRun = true
  · rw [tree_alone_of_dry hdry, tree_alone_of_dry hdry]
    refine ⟨h, fun hpath => dry_alone_congr hdry hpath hchange ?_⟩
    rw [hpath] at hfind ⊢
    exact load_congr hfind
  rw [Bool.not_eq_true] at hdry
  rcases alone_cases hdry hclosed hgoal with ⟨e, hload, halone⟩ | ⟨d, hload, hcases⟩
  · rcases alone_cases hdry hclosed' hgoal' with ⟨e', hload', halone'⟩ | ⟨d, hload', -⟩
    · rw [halone, halone']
      refine ⟨h, fun hpath => ⟨rfl, ?_⟩⟩
      rw [hpath] at hload' hfind
      rw [load_congr hfind, hload] at hload'
      cases hload'
      rfl
    · rw [load_of_find hload' hfind.symm] at hload
      cases hload
  · have hload' : Document.load t' v'.path = .ok d := load_of_find hload hfind
    rcases alone_cases hdry hclosed' hgoal' with ⟨e, herror, -⟩ | ⟨d', hload'', hcases'⟩
    · rw [hload'] at herror
      cases herror
    · rw [hload'] at hload''
      cases hload''
      rw [hchange, hheader, h.sealed] at hcases'
      rcases hcases with ⟨hnot, halone⟩ | ⟨hchanged, hsealed, halone⟩ |
        ⟨hchanged, s, hsaved, halone⟩ <;>
      rcases hcases' with ⟨hnot', halone'⟩ | ⟨hchanged', hsealed', halone'⟩ |
        ⟨hchanged', s', hsaved', halone'⟩
      · rw [halone, halone']
        exact ⟨h, fun _ => ⟨rfl, rfl⟩⟩
      · simp [hnot] at hchanged'
      · simp [hnot] at hchanged'
      · simp [hchanged] at hnot'
      · rw [halone, halone']
        exact ⟨h, fun hpath => ⟨rfl, by rw [hpath]⟩⟩
      · exact absurd (h.sealed.2 hsealed) hsaved'.unsealed
      · simp [hchanged] at hnot'
      · exact absurd hsealed' hsaved.unsealed
      · rw [halone, halone']
        exact ⟨hsaved.agrees hsaved', fun hpath => ⟨by rw [hpath], rfl⟩⟩

end Visit

/-! ## Visits that do not get into each other's way -/

/-- The trees in which a run is while it goes on from a tree. -/
structure Stage (t s : FileTree) : Prop where
  closed : s.Closed
  persists : t.Persists s

/-- A place that no file before or behind it has to be made for. -/
def Clear (t : FileTree) (vs : List Visit) (place : List String) : Prop :=
  ∀ v ∈ vs, ∀ other, t.goal v.path = some other → other ≠ place →
    (other <+: place → t.node? other ≠ none) ∧ (place <+: other → t.node? place ≠ none)

/-- Visits to files none of which has to be made where another one lies, by paths that go
somewhere. -/
structure Unhindered (t : FileTree) (vs : List Visit) : Prop where
  closed : t.Closed
  leads : ∀ v ∈ vs, (t.goal v.path).isSome = true
  apart : ∀ v ∈ vs, ∀ w ∈ vs, ∀ place other, t.goal v.path = some place →
    t.goal w.path = some other → place ≠ other → place <+: other → t.node? place ≠ none

/-- A run of visits, one after the other. -/
def visitAll (settings : WriterSettings) (o : WriteOutcome) (vs : List Visit) : WriteOutcome :=
  vs.foldl (Visit.run settings) o

section Unhindered

variable {settings : WriterSettings} {o : WriteOutcome} {t s : FileTree} {vs ws : List Visit}
variable {v : Visit} {place other : List String}

theorem visitAll_cons (settings : WriterSettings) (o : WriteOutcome) (v : Visit)
    (vs : List Visit) :
    visitAll settings o (v :: vs) = visitAll settings (v.run settings o) vs := rfl

theorem Stage.refl (h : t.Closed) : Stage t t := ⟨h, .refl t⟩

theorem Stage.goal (h : Stage t s) {path : String} (hgoal : t.goal path = some place) :
    s.goal path = some place := h.persists.keepsDirectories.goal hgoal

theorem Stage.visit (h : Stage t s) (settings : WriterSettings)
    (hgoal : t.goal v.path = some place) : Stage t (v.alone settings s).tree := by
  obtain ⟨hpersists, hclosed⟩ := Visit.persists_alone settings h.closed (h.goal hgoal)
  exact ⟨hclosed, h.persists.trans hpersists⟩

/-- A visit leaves trees alike at places that are clear of it. -/
theorem Stage.agrees_of_ne (h : Stage t s) (settings : WriterSettings)
    (hclear : Clear t vs place) (hv : v ∈ vs) (hgoal : t.goal v.path = some other)
    (hne : other ≠ place) : s.Agrees (v.alone settings s).tree place := by
  obtain ⟨hbehind, hbefore⟩ := hclear v hv other hgoal hne
  rcases Visit.tree_alone_cases settings h.closed (h.goal hgoal) with
    hsame | ⟨d, -, t', hsaved, halone⟩
  · rw [hsame]
    exact .refl s place
  · rw [halone]
    exact hsaved.agrees_other hne (fun hstem => h.persists.ne_none (hbehind hstem))
      fun hstem => h.persists.ne_none (hbefore hstem)

theorem Unhindered.clear (h : Unhindered t vs) (hv : v ∈ vs) (hgoal : t.goal v.path = some place) :
    Clear t vs place := fun w hw other hother hne =>
  ⟨fun hstem => h.apart w hw v hv other place hother hgoal hne hstem,
    fun hstem => h.apart v hv w hw place other hgoal hother (Ne.symm hne) hstem⟩

/-- A run does at a place what the visits to the place do. -/
theorem agrees_filter (settings : WriterSettings) (hclear : Clear t vs place)
    (hleads : ∀ v ∈ vs, (t.goal v.path).isSome = true) {o' : WriteOutcome} (ho : Stage t o.tree)
    (ho' : Stage t o'.tree) (h : o.tree.Agrees o'.tree place) :
    (visitAll settings o vs).tree.Agrees
      (visitAll settings o' (vs.filter fun v => t.goal v.path = some place)).tree place := by
  induction vs generalizing o o' with
  | nil => exact h
  | cons v vs ih =>
    obtain ⟨other, hother⟩ := Option.isSome_iff_exists.1 (hleads v List.mem_cons_self)
    have hclear' : Clear t vs place := fun w hw => hclear w (List.mem_cons_of_mem v hw)
    have hleads' : ∀ w ∈ vs, (t.goal w.path).isSome = true :=
      fun w hw => hleads w (List.mem_cons_of_mem v hw)
    have hstage : Stage t (v.run settings o).tree := by
      rw [Visit.tree_run]
      exact ho.visit settings hother
    by_cases hhere : other = place
    · subst hhere
      rw [List.filter_cons_of_pos (by simp [hother])]
      have hstage' : Stage t (v.run settings o').tree := by
        rw [Visit.tree_run]
        exact ho'.visit settings hother
      refine ih hclear' hleads' hstage hstage' ?_
      rw [Visit.tree_run, Visit.tree_run]
      exact (Visit.agrees_alone settings ho.closed ho'.closed (ho.goal hother) (ho'.goal hother)
        rfl rfl h).1
    · rw [List.filter_cons_of_neg (by simp [hother, hhere])]
      refine ih hclear' hleads' hstage ho' ?_
      rw [Visit.tree_run]
      exact (ho.agrees_of_ne settings hclear List.mem_cons_self hother hhere).symm.trans h

/-- Visits of the same kinds to a place do the same in trees that are alike there. -/
theorem agrees_visitAll {t' : FileTree} {vs' : List Visit} (settings : WriterSettings)
    (hsame : vs'.map (fun v => (v.header, v.change)) = vs.map fun v => (v.header, v.change))
    (hgoals : ∀ v ∈ vs, t.goal v.path = some place)
    (hgoals' : ∀ v ∈ vs', t'.goal v.path = some place) {o' : WriteOutcome} (ho : Stage t o.tree)
    (ho' : Stage t' o'.tree) (h : o.tree.Agrees o'.tree place) :
    (visitAll settings o vs).tree.Agrees (visitAll settings o' vs').tree place := by
  induction vs generalizing vs' o o' with
  | nil =>
    obtain rfl : vs' = [] := by simpa using hsame
    exact h
  | cons v vs ih =>
    obtain ⟨v', vs', rfl⟩ : ∃ v' rest, vs' = v' :: rest := by
      cases vs' with
      | nil => simp at hsame
      | cons v' rest => exact ⟨v', rest, rfl⟩
    simp only [List.map_cons, List.cons.injEq, Prod.mk.injEq] at hsame
    obtain ⟨⟨hheader, hchange⟩, hrest⟩ := hsame
    have hgoal := hgoals v List.mem_cons_self
    have hgoal' := hgoals' v' List.mem_cons_self
    refine ih hrest (fun w hw => hgoals w (List.mem_cons_of_mem v hw))
      (fun w hw => hgoals' w (List.mem_cons_of_mem v' hw)) ?_ ?_ ?_
    · rw [Visit.tree_run]
      exact ho.visit settings hgoal
    · rw [Visit.tree_run]
      exact ho'.visit settings hgoal'
    · rw [Visit.tree_run, Visit.tree_run]
      exact (Visit.agrees_alone settings ho.closed ho'.closed (ho.goal hgoal) (ho'.goal hgoal')
        hheader hchange h).1

end Unhindered

end TranslationAudit.Catalog
