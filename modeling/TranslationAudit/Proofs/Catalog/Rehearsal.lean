import TranslationAudit.Proofs.Catalog.VisitAll

/-! # Runs that leave files as they are

* `Predicts`: a dry run that tells what a run does.
* `Visit.Keeps`: changes after which catalogs can be read again.
* `predicts_visitAll`: a dry run tells what a run does, if all files can be written and what is
  written for one visit can be read for the next ones.
-/

namespace TranslationAudit.Catalog

/-- A dry run tells which catalogs a run changes and why it fails, and changes no file itself. The
run changes no other files. -/
structure Predicts (t : FileTree) (dry real : WriteOutcome) : Prop where
  touched : dry.touched = real.touched
  failures : dry.failures = real.failures
  kept : dry.tree = t
  files : ∀ place n, n.isDirectory = false →
    (∀ path ∈ real.touched, t.goal path ≠ some place) →
      (real.tree.node? place = some n ↔ t.node? place = some n)

/-- Whether a file could not be written. -/
def Error.isWrite : Error → Bool
  | .write _ _ => true
  | _ => false

variable {settings : WriterSettings} {t : FileTree} {v : Visit} {vs ws : List Visit}
variable {dry real : WriteOutcome} {K : Document → Prop}

/-- A change that keeps a property of catalogs, also when they are read again. -/
structure Visit.Keeps (settings : WriterSettings) (t : FileTree) (K : Document → Prop)
    (v : Visit) : Prop where
  first : ∀ d, Document.load t v.path = .ok d → K d
  again : ∀ d, K d → (v.change d).2 = true → ∀ (t' : FileTree) path,
    t'.read path = .ok (render settings.layout (v.change d).1 (v.header d)) →
      ∃ d', Document.load t' path = .ok d' ∧ K d'

/-- A catalog that was written in a run and can be read again. -/
structure Written (t : FileTree) (K : Document → Prop) (real : WriteOutcome) (path : String) :
    Prop where
  touched : ∃ p ∈ real.touched, Path.components p = Path.components path
  before : ∃ d, Document.load t path = .ok d
  after : ∃ d, Document.load real.tree path = .ok d ∧ K d

/-- A run and its dry run before some visits: what is to be changed is as it was, or was written. -/
structure Rehearsed (t : FileTree) (K : Document → Prop) (ws : List Visit)
    (dry real : WriteOutcome) : Prop where
  touched : dry.touched = real.touched
  failures : dry.failures = real.failures
  kept : dry.tree = t
  stage : Stage t real.tree
  files : ∀ w ∈ ws, ∀ place, t.goal w.path = some place →
    t.Agrees real.tree place ∨ Written t K real w.path

/-- A dry visit leaves all files. -/
theorem Visit.dry_cases (settings : WriterSettings) (t : FileTree) (v : Visit) :
    (∃ e, Document.load t v.path = .error e ∧
      v.alone { settings with dryRun := true } t = { tree := t, failures := [e] }) ∨
    ∃ d, Document.load t v.path = .ok d ∧
      (((v.change d).2 = false ∧ v.alone { settings with dryRun := true } t = { tree := t }) ∨
        ((v.change d).2 = true ∧
          v.alone { settings with dryRun := true } t = { tree := t, touched := [v.path] })) := by
  cases hload : Document.load t v.path with
  | error e => exact .inl ⟨e, rfl, Visit.alone_of_error hload⟩
  | ok d =>
    refine .inr ⟨d, rfl, ?_⟩
    cases hchanged : (v.change d).2 with
    | false => exact .inl ⟨rfl, Visit.alone_of_not_changed hload hchanged⟩
    | true => exact .inr ⟨rfl, Visit.alone_of_dry rfl hload hchanged⟩

theorem record_of_mem {o : WriteOutcome} {path : String}
    (h : ∃ p ∈ o.touched, Path.components p = Path.components path) : o.record path = o := by
  unfold WriteOutcome.record
  rw [if_pos]
  simpa using h

theorem Rehearsed.same (hr : Rehearsed t K (v :: ws) dry real) {dry' real' : WriteOutcome}
    (htouched : dry'.touched = real'.touched) (hfailures : dry'.failures = real'.failures)
    (hkept : dry'.tree = t) (htree : real'.tree = real.tree) (hreal : real'.touched = real.touched) :
    Rehearsed t K ws dry' real' where
  touched := htouched
  failures := hfailures
  kept := hkept
  stage := by
    rw [htree]
    exact hr.stage
  files w hw place hplace := by
    rw [htree]
    rcases hr.files w (List.mem_cons_of_mem v hw) place hplace with halike | hwritten
    · exact .inl halike
    · exact .inr ⟨hreal ▸ hwritten.touched, hwritten.before, htree ▸ hwritten.after⟩

theorem Stage.saved {s s' : FileTree} {place : List String} {contents : String} (h : Stage t s)
    (hsaved : s.Saved place contents s') : Stage t s' :=
  ⟨hsaved.closed h.closed, h.persists.trans hsaved.persists⟩

/-- The files of the visits to come after one of them was saved. -/
theorem Rehearsed.saved (hr : Rehearsed t K (v :: ws) dry real) (h : Unhindered t vs)
    (hws : ∀ w ∈ v :: ws, w ∈ vs)
    (hagain : ∀ w ∈ ws, t.goal v.path = t.goal w.path →
      Path.components v.path = Path.components w.path ∧ v.Keeps settings t K)
    {place : List String} (hplace : t.goal v.path = some place)
    (hbefore : ∃ d, Document.load t v.path = .ok d) {d : Document} (hchanged : (v.change d).2 = true)
    (hK : v.Keeps settings t K → K d) {s : FileTree}
    (hsaved : real.tree.Saved place (render settings.layout (v.change d).1 (v.header d)) s)
    {real' : WriteOutcome} (htree : real'.tree = s)
    (hreal : real'.touched = (real.record v.path).touched) :
    ∀ w ∈ ws, ∀ other, t.goal w.path = some other →
      t.Agrees real'.tree other ∨ Written t K real' w.path := by
  intro w hw other hother
  have hw' := List.mem_cons_of_mem v hw
  have hstage := hr.stage.saved hsaved
  rw [htree]
  by_cases hsame : place = other
  · subst hsame
    obtain ⟨hcomponents, hkeeps⟩ := hagain w hw (hplace.trans hother.symm)
    refine .inr ⟨?_, ?_, ?_⟩
    · rw [hreal, ← hcomponents]
      exact exists_mem_touched_record real v.path
    · obtain ⟨d₀, hd₀⟩ := hbefore
      exact ⟨d₀, load_of_find hd₀
        ((FileTree.Agrees.refl t place).find h.closed h.closed hplace hother)⟩
    · rw [htree]
      exact hkeeps.again d (hK hkeeps) hchanged s w.path
        (hsaved.read hr.stage.closed (hstage.goal hother))
  · have hclear := h.clear (hws w hw') hother
    obtain ⟨hbehind, hbefore'⟩ :=
      hclear v (hws v List.mem_cons_self) place hplace hsame
    have hagrees : real.tree.Agrees s other := hsaved.agrees_other hsame
      (fun hstem => hr.stage.persists.ne_none (hbehind hstem))
      fun hstem => hr.stage.persists.ne_none (hbefore' hstem)
    rcases hr.files w hw' other hother with halike | hwritten
    · exact .inl (halike.trans hagrees)
    · obtain ⟨p, hp, hcomponents⟩ := hwritten.touched
      obtain ⟨e, he, hKe⟩ := hwritten.after
      refine .inr ⟨⟨p, ?_, hcomponents⟩, hwritten.before, e, ?_, hKe⟩
      · rw [hreal]
        exact mem_touched_record hp v.path
      · rw [htree]
        exact load_of_find he (hagrees.find hr.stage.closed hstage.closed (hr.stage.goal hother)
          (hstage.goal hother))

theorem touched_record_congr {o o' : WriteOutcome} (h : o.touched = o'.touched) (path : String) :
    (o.record path).touched = (o'.record path).touched := by
  rw [touched_record, touched_record, h]

/-! ## One visit -/

/-- What a visit does to a file that can be written. -/
theorem Visit.alone_cases_of_writes (hdry : settings.dryRun = false) {place : List String}
    (hclosed : real.tree.Closed) (hgoal : real.tree.goal v.path = some place)
    (hwrites : ∀ e ∈ (v.run settings real).failures, e.isWrite = false) :
    (∃ e, Document.load real.tree v.path = .error e ∧
      v.alone settings real.tree = { tree := real.tree, failures := [e] }) ∨
    ∃ d, Document.load real.tree v.path = .ok d ∧
      (((v.change d).2 = false ∧ v.alone settings real.tree = { tree := real.tree }) ∨
        ((v.change d).2 = true ∧ ∃ s,
          real.tree.Saved place (render settings.layout (v.change d).1 (v.header d)) s ∧
            v.alone settings real.tree = { tree := s, touched := [v.path] })) := by
  rcases Visit.alone_cases hdry hclosed hgoal with
    herror | ⟨d, hread, hnot | ⟨-, -, halone⟩ | hsaved⟩
  · exact .inl herror
  · exact .inr ⟨d, hread, .inl hnot⟩
  · have hmem : Error.write v.path .notFound ∈ (v.run settings real).failures := by
      rw [failures_run, halone]
      simp
    cases hwrites _ hmem
  · exact .inr ⟨d, hread, .inr hsaved⟩

/-- Both runs go on from a file that was saved, if both have recorded its path. -/
theorem Rehearsed.recorded (hr : Rehearsed t K (v :: ws) dry real) (h : Unhindered t vs)
    (hws : ∀ w ∈ v :: ws, w ∈ vs)
    (hagain : ∀ w ∈ ws, t.goal v.path = t.goal w.path →
      Path.components v.path = Path.components w.path ∧ v.Keeps settings t K)
    {place : List String} (hplace : t.goal v.path = some place)
    (hbefore : ∃ d, Document.load t v.path = .ok d) {d : Document} (hchanged : (v.change d).2 = true)
    (hK : v.Keeps settings t K → K d) {s : FileTree}
    (hsaved : real.tree.Saved place (render settings.layout (v.change d).1 (v.header d)) s)
    {dry' : WriteOutcome} (hdry' : dry'.touched = (dry.record v.path).touched)
    (hfailures : dry'.failures = dry.failures) (hkept : dry'.tree = dry.tree) :
    Rehearsed t K ws dry' (({ real with tree := s } : WriteOutcome).record v.path) where
  touched := by
    rw [hdry']
    refine touched_record_congr ?_ v.path
    exact hr.touched
  failures := by
    rw [hfailures, failures_record]
    exact hr.failures
  kept := hkept.trans hr.kept
  stage := by
    rw [tree_record]
    exact hr.stage.saved hsaved
  files := hr.saved h hws hagain hplace hbefore hchanged hK hsaved (tree_record _ _)
    (touched_record_congr (by rfl) v.path)

/-- A dry visit tells what a visit does to a file that is as it was: both read the same. -/
theorem Rehearsed.visit_alike (hr : Rehearsed t K (v :: ws) dry real) (h : Unhindered t vs)
    (hdry : settings.dryRun = false) (hws : ∀ w ∈ v :: ws, w ∈ vs)
    (hagain : ∀ w ∈ ws, t.goal v.path = t.goal w.path →
      Path.components v.path = Path.components w.path ∧ v.Keeps settings t K)
    (hwrites : ∀ e ∈ (v.run settings real).failures, e.isWrite = false)
    {place : List String} (hplace : t.goal v.path = some place)
    (halike : t.Agrees real.tree place) :
    Rehearsed t K ws (v.run { settings with dryRun := true } dry) (v.run settings real) := by
  have hgoal := hr.stage.goal hplace
  have hload : Document.load real.tree v.path = Document.load t v.path :=
    load_congr (halike.find h.closed hr.stage.closed hplace hgoal)
  have hrehearsal := Visit.dry_cases settings t v
  rw [← hload, ← hr.kept] at hrehearsal
  rcases Visit.alone_cases_of_writes hdry hr.stage.closed hgoal hwrites with
    ⟨e, hread, halone⟩ | ⟨d, hread, ⟨hnot, halone⟩ | ⟨hchanged, s, hsaved, halone⟩⟩ <;>
    simp only [hread, Except.error.injEq, Except.ok.injEq, reduceCtorEq, false_and, exists_false,
      exists_eq_left', false_or, or_false] at hrehearsal
  · rw [Visit.run_eq_fail hrehearsal, Visit.run_eq_fail halone]
    exact hr.same hr.touched (congrArg (· ++ [e]) hr.failures) hr.kept rfl rfl
  · simp only [hnot, true_and, Bool.false_eq_true, false_and, or_false] at hrehearsal
    rw [Visit.run_eq_self hrehearsal, Visit.run_eq_self halone]
    exact hr.same hr.touched hr.failures hr.kept rfl rfl
  · simp only [hchanged, Bool.true_eq_false, false_and, true_and, false_or] at hrehearsal
    rw [Visit.run_eq_record hrehearsal, Visit.run_eq_record halone]
    rw [hload] at hread
    exact hr.recorded h hws hagain hplace ⟨d, hread⟩ hchanged (fun hkeeps => hkeeps.first d hread)
      hsaved rfl (failures_record _ _) (tree_record _ _)

/-- A dry visit tells what a visit does to a file that was written: its path was recorded before by
both runs. -/
theorem Rehearsed.visit_written (hr : Rehearsed t K (v :: ws) dry real) (h : Unhindered t vs)
    (hdry : settings.dryRun = false) (hws : ∀ w ∈ v :: ws, w ∈ vs)
    (hagain : ∀ w ∈ ws, t.goal v.path = t.goal w.path →
      Path.components v.path = Path.components w.path ∧ v.Keeps settings t K)
    (hwrites : ∀ e ∈ (v.run settings real).failures, e.isWrite = false)
    {place : List String} (hplace : t.goal v.path = some place)
    (hwritten : Written t K real v.path) :
    Rehearsed t K ws (v.run { settings with dryRun := true } dry) (v.run settings real) := by
  obtain ⟨d, hread, hK⟩ := hwritten.after
  have hrecord : dry.record v.path = dry := by
    refine record_of_mem ?_
    rw [hr.touched]
    exact hwritten.touched
  have hself : v.run { settings with dryRun := true } dry = dry := by
    have hrehearsal := Visit.dry_cases settings t v
    rw [← hr.kept] at hrehearsal
    rcases hrehearsal with ⟨e, herror, -⟩ | ⟨d', -, ⟨-, hdryRun⟩ | ⟨-, hdryRun⟩⟩
    · obtain ⟨d₀, hbefore⟩ := hwritten.before
      rw [hr.kept, hbefore] at herror
      cases herror
    · exact Visit.run_eq_self hdryRun
    · exact (Visit.run_eq_record hdryRun).trans hrecord
  rw [hself]
  rcases Visit.alone_cases_of_writes hdry hr.stage.closed (hr.stage.goal hplace) hwrites with
    ⟨e, hread', -⟩ | ⟨d', hread', hcases⟩ <;> rw [hread] at hread' <;> cases hread'
  rcases hcases with ⟨-, halone⟩ | ⟨hchanged, s, hsaved, halone⟩
  · rw [Visit.run_eq_self halone]
    exact hr.same hr.touched hr.failures hr.kept rfl rfl
  · rw [Visit.run_eq_record halone]
    exact hr.recorded h hws hagain hplace hwritten.before hchanged (fun _ => hK) hsaved
      (congrArg WriteOutcome.touched hrecord).symm rfl rfl

/-- A dry visit tells what a visit does to a file that is as it was, or that was written. -/
theorem Rehearsed.visit (hr : Rehearsed t K (v :: ws) dry real) (h : Unhindered t vs)
    (hdry : settings.dryRun = false) (hws : ∀ w ∈ v :: ws, w ∈ vs)
    (hagain : ∀ w ∈ ws, t.goal v.path = t.goal w.path →
      Path.components v.path = Path.components w.path ∧ v.Keeps settings t K)
    (hwrites : ∀ e ∈ (v.run settings real).failures, e.isWrite = false) :
    Rehearsed t K ws (v.run { settings with dryRun := true } dry) (v.run settings real) := by
  obtain ⟨place, hplace⟩ := Option.isSome_iff_exists.1 (h.leads v (hws v List.mem_cons_self))
  rcases hr.files v List.mem_cons_self place hplace with halike | hwritten
  · exact hr.visit_alike h hdry hws hagain hwrites hplace halike
  · exact hr.visit_written h hdry hws hagain hwrites hplace hwritten

/-! ## Runs -/

/-- A dry run tells what a run does if all files can be written, and if what is written for a visit
can be read for the next ones to the file, which have its path. -/
theorem predicts_visitAll (h : Unhindered t vs) (hdry : settings.dryRun = false)
    (hagain : vs.Pairwise fun v w => t.goal v.path = t.goal w.path →
      Path.components v.path = Path.components w.path ∧ v.Keeps settings t K)
    (hwrites : ∀ e ∈ (visitAll settings { tree := t } vs).failures, e.isWrite = false) :
    Predicts t (visitAll { settings with dryRun := true } { tree := t } vs)
      (visitAll settings { tree := t } vs) := by
  have hall {ws : List Visit} (hws : ∀ w ∈ ws, w ∈ vs)
      (hagain : ws.Pairwise fun v w => t.goal v.path = t.goal w.path →
        Path.components v.path = Path.components w.path ∧ v.Keeps settings t K)
      {dry real : WriteOutcome} (hr : Rehearsed t K ws dry real)
      (hwrites : ∀ e ∈ (visitAll settings real ws).failures, e.isWrite = false) :
      Rehearsed t K [] (visitAll { settings with dryRun := true } dry ws)
        (visitAll settings real ws) := by
    induction ws generalizing dry real with
    | nil => exact hr
    | cons v ws ih =>
      obtain ⟨hfirst, hagain⟩ := List.pairwise_cons.1 hagain
      have hnext := hr.visit h hdry hws hfirst fun e he =>
        hwrites e (mem_failures_visitAll he ws)
      exact ih (fun w hw => hws w (List.mem_cons_of_mem v hw)) hagain hnext hwrites
  have hstart : Rehearsed t K vs { tree := t } { tree := t } :=
    ⟨rfl, rfl, rfl, .refl h.closed, fun _ _ place _ => .inl (.refl t place)⟩
  have hend := hall (fun _ hv => hv) hagain hstart hwrites
  refine ⟨hend.touched, hend.failures, hend.kept, ?_⟩
  intro place n hfile huntouched
  exact file_of_untouched settings h.leads (.refl h.closed) huntouched hfile

end TranslationAudit.Catalog
