import TranslationAudit.Proofs.Catalog.Visit

/-! # What a run of visits leaves

* `failures_of_unreadable`: catalogs that cannot be read are left alone, and are the failures of
  their own visits.
* `visitAll_of_distinct`: visits to different files do what each of them does by itself.
* `file_of_untouched`: files that are not touched are as they were.
-/

namespace TranslationAudit.Catalog

variable {settings : WriterSettings} {o : WriteOutcome} {t s : FileTree} {vs ws : List Visit}
variable {v : Visit} {place other : List String}

theorem touched_run (settings : WriterSettings) (o : WriteOutcome) (v : Visit) :
    (v.run settings o).touched =
      ((v.alone settings o.tree).touched.foldl WriteOutcome.record o).touched := by
  rw [Visit.run_eq_join]
  rfl

theorem failures_run (settings : WriterSettings) (o : WriteOutcome) (v : Visit) :
    (v.run settings o).failures = o.failures ++ (v.alone settings o.tree).failures := by
  rw [Visit.run_eq_join]
  rfl

theorem touched_record (o : WriteOutcome) (path : String) :
    (o.record path).touched =
      if o.touched.any fun p => Path.components p = Path.components path then o.touched
      else o.touched ++ [path] := by
  unfold WriteOutcome.record
  split <;> rfl

theorem visitAll_append_cons (settings : WriterSettings) (o : WriteOutcome) (vs : List Visit)
    (v : Visit) (ws : List Visit) :
    visitAll settings o (vs ++ v :: ws) =
      visitAll settings (v.run settings (visitAll settings o vs)) ws := by
  unfold visitAll
  rw [List.foldl_append, List.foldl_cons]

/-- Failures stay failures. -/
theorem mem_failures_visitAll {e : Error} (h : e ∈ o.failures)
    (vs : List Visit) : e ∈ (visitAll settings o vs).failures := by
  refine List.foldlRecOn (motive := fun o : WriteOutcome => e ∈ o.failures) vs _ h ?_
  intro o h v _
  rw [failures_run]
  exact List.mem_append_left _ h

/-! ## Catalogs that cannot be read -/

/-- Why a catalog cannot be read, if it cannot. -/
def unreadable? (t : FileTree) (path : String) : Option Error :=
  match Document.load t path with
  | .error e => some e
  | .ok _ => none

theorem unreadable?_eq_some {path : String} {e : Error} :
    unreadable? t path = some e ↔ Document.load t path = .error e := by
  unfold unreadable?
  cases Document.load t path <;> simp

theorem unreadable?_eq_none {path : String} :
    unreadable? t path = none ↔ ∃ d, Document.load t path = .ok d := by
  unfold unreadable?
  cases Document.load t path <;> simp

theorem path_of_load {path : String} {e : Error} (h : Document.load t path = .error e) :
    e.path = path := by
  unfold Document.load at h
  split at h
  · unfold Document.parse at h
    split at h
    · cases h
      rfl
    · split at h
      · cases h
        rfl
      · split at h <;> cases h
        rfl
  · cases h
  · cases h
    rfl

theorem path_of_store {path text : String} {e : Error} (h : store t path text = .error e) :
    e.path = path := by
  unfold store at h
  split at h
  · cases h
  · cases h
    rfl

theorem Visit.path_of_mem_failures {e : Error} (he : e ∈ (v.alone settings t).failures) :
    e.path = v.path := by
  unfold Visit.alone Visit.run revise at he
  split at he
  · next e' hload =>
    obtain rfl : e = e' := by simpa [WriteOutcome.fail] using he
    exact path_of_load hload
  · split at he
    · unfold WriteOutcome.finish at he
      split at he
      · simp [failures_record] at he
      · simp only at he
        split at he
        · simp [failures_record] at he
        · next e' hstore =>
          obtain rfl : e = e' := by simpa [WriteOutcome.fail] using he
          exact path_of_store hstore
    · cases he

/-- The catalogs that cannot be read are as they were. -/
def Intact (t : FileTree) (vs : List Visit) (s : FileTree) : Prop :=
  ∀ v ∈ vs, ∀ place, t.goal v.path = some place → unreadable? t v.path ≠ none → t.Agrees s place

theorem Intact.visit (hs : Intact t vs s) (h : Unhindered t vs) (settings : WriterSettings)
    (hstage : Stage t s) (hv : v ∈ vs) :
    Intact t vs (v.alone settings s).tree ∧
      (v.alone settings s).failures.filter (fun e => (unreadable? t e.path).isSome) =
        (unreadable? t v.path).toList := by
  obtain ⟨place, hplace⟩ := Option.isSome_iff_exists.1 (h.leads v hv)
  cases hread : unreadable? t v.path with
  | some e =>
    have hload := unreadable?_eq_some.1 hread
    have hfind := (hs v hv place hplace (by simp [hread])).find h.closed hstage.closed hplace
      (hstage.goal hplace)
    rw [← load_congr hfind] at hload
    rw [Visit.alone_of_error hload]
    exact ⟨hs, by simp [path_of_load hload, hread]⟩
  | none =>
    refine ⟨?_, ?_⟩
    · intro w hw other hother hunreadable
      have hne : place ≠ other := by
        rintro rfl
        obtain ⟨d, hd⟩ := unreadable?_eq_none.1 hread
        have hfind := (FileTree.Agrees.refl t place).find h.closed h.closed hplace hother
        exact hunreadable (unreadable?_eq_none.2 ⟨d, load_of_find hd hfind⟩)
      exact (hs w hw other hother hunreadable).trans
        (hstage.agrees_of_ne settings (h.clear hw hother) hv hplace hne)
    · rw [Option.toList_none, List.filter_eq_nil_iff]
      intro e he
      rw [Visit.path_of_mem_failures he, hread]
      simp

/-- A catalog that cannot be read is left alone by a run, and is a failure for each visit. -/
theorem failures_of_unreadable (h : Unhindered t vs) (settings : WriterSettings) :
    Intact t vs (visitAll settings { tree := t } vs).tree ∧
    (visitAll settings { tree := t } vs).failures.filter (fun e => (unreadable? t e.path).isSome) =
      vs.filterMap fun v => unreadable? t v.path := by
  have hall {ws : List Visit} (hws : ∀ w ∈ ws, w ∈ vs) {o : WriteOutcome} (hstage : Stage t o.tree)
      (hintact : Intact t vs o.tree) : Intact t vs (visitAll settings o ws).tree ∧
        (visitAll settings o ws).failures.filter (fun e => (unreadable? t e.path).isSome) =
          o.failures.filter (fun e => (unreadable? t e.path).isSome) ++
            ws.filterMap fun v => unreadable? t v.path := by
    induction ws generalizing o with
    | nil => exact ⟨hintact, by simp [visitAll]⟩
    | cons v ws ih =>
      have hv := hws v List.mem_cons_self
      obtain ⟨place, hplace⟩ := Option.isSome_iff_exists.1 (h.leads v hv)
      obtain ⟨hintact', hfailures⟩ := hintact.visit h settings hstage hv
      have hstage' := hstage.visit settings hplace
      rw [← Visit.tree_run] at hintact' hstage'
      obtain ⟨hend, hrest⟩ := ih (fun w hw => hws w (List.mem_cons_of_mem v hw)) hstage' hintact'
      refine ⟨hend, hrest.trans ?_⟩
      rw [failures_run, List.filter_append, hfailures, List.append_assoc, List.filterMap_cons]
      cases unreadable? t v.path <;> rfl
  exact hall (fun _ hv => hv) (o := { tree := t }) (.refl h.closed) fun _ _ place _ _ =>
    .refl t place

/-! ## Catalogs in different files -/

theorem goal_congr {path other : String} (h : Path.components path = Path.components other) :
    t.goal path = t.goal other := by
  unfold FileTree.goal
  rw [h]

theorem Visit.touched_alone (settings : WriterSettings) (t : FileTree) (v : Visit) :
    (v.alone settings t).touched = [] ∨ (v.alone settings t).touched = [v.path] := by
  unfold Visit.alone Visit.run revise
  split
  · exact .inl rfl
  · split
    · unfold WriteOutcome.finish
      split
      · exact .inr rfl
      · split
        · exact .inr rfl
        · exact .inl rfl
    · exact .inl rfl

/-- A visit that fails leaves all files. -/
theorem Visit.failures_alone (settings : WriterSettings) (t : FileTree) (v : Visit) :
    (v.alone settings t).failures = [] ∨
      ∃ e, v.alone settings t = { tree := t, failures := [e] } := by
  unfold Visit.alone Visit.run revise
  split
  · exact .inr ⟨_, rfl⟩
  · split
    · unfold WriteOutcome.finish
      split
      · exact .inl rfl
      · split
        · exact .inl rfl
        · exact .inr ⟨_, rfl⟩
    · exact .inl rfl

/-- The files of the visits to come are as they were, and were not touched. -/
structure Awaits (t : FileTree) (ws : List Visit) (o : WriteOutcome) : Prop where
  stage : Stage t o.tree
  alike : ∀ w ∈ ws, ∀ place, t.goal w.path = some place → t.Agrees o.tree place
  fresh : ∀ p ∈ o.touched, ∀ w ∈ ws, Path.components p ≠ Path.components w.path

theorem Awaits.visit (ho : Awaits t (v :: ws) o) (h : Unhindered t vs)
    (settings : WriterSettings) (hws : ∀ w ∈ v :: ws, w ∈ vs)
    (hfirst : ∀ w ∈ ws, t.goal v.path ≠ t.goal w.path) :
    Awaits t ws (v.run settings o) ∧
      (v.run settings o).touched = o.touched ++ (v.alone settings t).touched ∧
      (v.run settings o).failures = o.failures ++ (v.alone settings t).failures := by
  have hv := hws v List.mem_cons_self
  obtain ⟨place, hplace⟩ := Option.isSome_iff_exists.1 (h.leads v hv)
  obtain ⟨htouched, hfailures⟩ := (Visit.agrees_alone settings h.closed ho.stage.closed hplace
    (ho.stage.goal hplace) rfl rfl (ho.alike v List.mem_cons_self place hplace)).2 rfl
  have hrecorded : (v.run settings o).touched = o.touched ++ (v.alone settings t).touched := by
    rw [touched_run, htouched]
    rcases Visit.touched_alone settings t v with hnone | hone
    · rw [hnone]
      simp
    · have hfresh : (o.touched.any fun p => Path.components p = Path.components v.path) =
          false := by
        rw [List.any_eq_false]
        intro p hp
        simpa using ho.fresh p hp v List.mem_cons_self
      rw [hone, List.foldl_cons, List.foldl_nil, touched_record, hfresh]
      rfl
  refine ⟨⟨?_, ?_, ?_⟩, hrecorded, by rw [failures_run, hfailures]⟩
  · rw [Visit.tree_run]
    exact ho.stage.visit settings hplace
  · intro w hw other hother
    have hne : place ≠ other := by
      rintro rfl
      exact hfirst w hw (hplace.trans hother.symm)
    have hw' := List.mem_cons_of_mem v hw
    rw [Visit.tree_run]
    exact (ho.alike w hw' other hother).trans
      (ho.stage.agrees_of_ne settings (h.clear (hws w hw') hother) hv hplace hne)
  · intro p hp w hw heq
    rw [hrecorded, List.mem_append] at hp
    rcases hp with hp | hp
    · exact ho.fresh p hp w (List.mem_cons_of_mem v hw) heq
    · rcases Visit.touched_alone settings t v with hnone | hone
      · rw [hnone] at hp
        cases hp
      · rw [hone, List.mem_singleton] at hp
        exact hfirst w hw (goal_congr (hp ▸ heq))

/-- Visits to different files do what each of them does by itself. -/
theorem visitAll_of_distinct (h : Unhindered t vs) (settings : WriterSettings)
    (hdistinct : vs.Pairwise fun v w => t.goal v.path ≠ t.goal w.path) :
    (visitAll settings { tree := t } vs).touched =
        vs.flatMap (fun v => (v.alone settings t).touched) ∧
      (visitAll settings { tree := t } vs).failures =
        vs.flatMap fun v => (v.alone settings t).failures := by
  have hall {ws : List Visit} (hws : ∀ w ∈ ws, w ∈ vs)
      (hdistinct : ws.Pairwise fun v w => t.goal v.path ≠ t.goal w.path) {o : WriteOutcome}
      (ho : Awaits t ws o) :
      (visitAll settings o ws).touched =
          o.touched ++ ws.flatMap (fun v => (v.alone settings t).touched) ∧
        (visitAll settings o ws).failures =
          o.failures ++ ws.flatMap fun v => (v.alone settings t).failures := by
    induction ws generalizing o with
    | nil => simp [visitAll]
    | cons v ws ih =>
      obtain ⟨hfirst, hdistinct⟩ := List.pairwise_cons.1 hdistinct
      obtain ⟨ho', htouched, hfailures⟩ := ho.visit h settings hws hfirst
      obtain ⟨hend, hrest⟩ := ih (fun w hw => hws w (List.mem_cons_of_mem v hw)) hdistinct ho'
      refine ⟨hend.trans ?_, hrest.trans ?_⟩
      · rw [htouched, List.flatMap_cons, List.append_assoc]
      · rw [hfailures, List.flatMap_cons, List.append_assoc]
  have hstart : Awaits t vs { tree := t } :=
    ⟨.refl h.closed, fun _ _ place _ => .refl t place, by simp⟩
  exact hall (fun _ hv => hv) hdistinct hstart

/-! ## Files that are not touched -/

theorem mem_touched_record {path : String} (h : path ∈ o.touched) (other : String) :
    path ∈ (o.record other).touched := by
  rw [touched_record]
  split
  · exact h
  · exact List.mem_append_left _ h

theorem mem_touched_visitAll {path : String} (h : path ∈ o.touched) (vs : List Visit) :
    path ∈ (visitAll settings o vs).touched := by
  refine List.foldlRecOn (motive := fun o : WriteOutcome => path ∈ o.touched) vs _ h ?_
  intro o h v _
  rw [touched_run]
  rcases Visit.touched_alone settings o.tree v with hnone | hone
  · rw [hnone]
    exact h
  · rw [hone]
    exact mem_touched_record h v.path

theorem exists_mem_touched_record (o : WriteOutcome) (path : String) :
    ∃ p ∈ (o.record path).touched, Path.components p = Path.components path := by
  rw [touched_record]
  split
  · next hany => simpa using hany
  · exact ⟨path, List.mem_append_right _ List.mem_cons_self, rfl⟩

/-- Only paths of visits are touched. -/
theorem exists_of_mem_touched {path : String} (h : path ∈ (visitAll settings o vs).touched) :
    path ∈ o.touched ∨ ∃ v ∈ vs, v.path = path := by
  induction vs generalizing o with
  | nil => exact .inl h
  | cons v vs ih =>
    rcases ih h with h | ⟨w, hw, hpath⟩
    · rw [touched_run] at h
      rcases Visit.touched_alone settings o.tree v with hnone | hone
      · rw [hnone] at h
        exact .inl h
      · rw [hone, List.foldl_cons, List.foldl_nil, touched_record] at h
        split at h
        · exact .inl h
        · rcases List.mem_append.1 h with h | h
          · exact .inl h
          · exact .inr ⟨v, List.mem_cons_self, (List.mem_singleton.1 h).symm⟩
    · exact .inr ⟨w, List.mem_cons_of_mem v hw, hpath⟩

/-- Files to which no touched path goes are as they were. -/
theorem file_of_untouched (settings : WriterSettings)
    (hleads : ∀ v ∈ vs, (t.goal v.path).isSome = true) (hstage : Stage t o.tree)
    (huntouched : ∀ path ∈ (visitAll settings o vs).touched, t.goal path ≠ some place)
    {n : FileNode} (hfile : n.isDirectory = false) :
    (visitAll settings o vs).tree.node? place = some n ↔ o.tree.node? place = some n := by
  induction vs generalizing o with
  | nil => rfl
  | cons v vs ih =>
    obtain ⟨other, hother⟩ := Option.isSome_iff_exists.1 (hleads v List.mem_cons_self)
    have hstage' := hstage.visit settings hother
    rw [← Visit.tree_run] at hstage'
    refine (ih (fun w hw => hleads w (List.mem_cons_of_mem v hw)) hstage' huntouched).trans ?_
    rw [Visit.tree_run]
    rcases Visit.tree_alone_cases settings hstage.closed (hstage.goal hother) with
      hsame | ⟨d, -, t', hsaved, halone⟩
    · rw [hsame]
    · rw [halone]
      refine hsaved.file_iff ?_ hfile
      rintro rfl
      have htouched : (v.run settings o).touched = (o.record v.path).touched := by
        rw [touched_run, halone]
        rfl
      obtain ⟨p, hp, hcomponents⟩ := exists_mem_touched_record o v.path
      rw [← htouched] at hp
      exact huntouched p (mem_touched_visitAll hp vs) ((goal_congr hcomponents).trans hother)

end TranslationAudit.Catalog
