import TranslationAudit.Proofs.Batch.Named
import TranslationAudit.Proofs.Update

/-! # Adding the same units again

* `Catalog.Document.Rereadable`: catalogs that can be read again after units were added.
* `Catalog.Document.not_changed_of_supplies`: what is supplied is not added again.
* `Batch.Stable`: catalogs with well formed names that keep the order of what they repeat.
* `Batch.outcome_again`: a run that was without failures finds nothing to do when it is made again.
-/

namespace TranslationAudit

namespace Catalog

namespace Document

variable {layout : Layout} {settings : WriterSettings} {d d' : Document} {t t' : FileTree}

/-- Catalogs that can be read again after units were added. -/
structure Rereadable (layout : Layout) (d : Document) : Prop where
  sound : d.Sound
  asRead : d.AsRead
  keyed : d.Keyed
  inPlace : d.InPlace layout

theorem Rereadable.of_holds {path : String} (h : Holds t path d) (hplace : d.InPlace layout) :
    d.Rereadable layout := ⟨h.sound.1, h.sound.2, h.keyed, hplace⟩

theorem Rereadable.empty : ({} : Document).Rereadable layout := by
  refine ⟨sound_empty.1, sound_empty.2, .empty, ?_⟩
  rintro id ⟨n, e, hn, -⟩
  cases hn

/-- Units that were added are in the catalog that is read again. -/
theorem Rereadable.insertAll (h : d.Rereadable layout) {writesTarget : Bool}
    {additions : List Addition} {header : Header} {path : String}
    (hread : t.read path = .ok (render layout (d.insertAll settings writesTarget additions).1 header)) :
    ∃ d', Document.load t path = .ok d' ∧ d'.Rereadable layout ∧
      (d.insertAll settings writesTarget additions).1.Grows d' := by
  have hextended := extended_insertAll settings writesTarget additions h.sound h.keyed.distinct
  have hedited := hextended.edited h.asRead
  obtain ⟨d', hparse, hsingles, hforms, hrepeats⟩ :=
    hedited.reread h.asRead (hextended.keepsRepeats h.asRead h.inPlace) path header
  have hholds : Holds t path d' := ⟨_, hread, hparse, namesIn_render hedited.sound layout header⟩
  refine ⟨d', hholds.load, .of_holds hholds fun id hid => h.inPlace id (hrepeats id hid), ?_, ?_⟩
  · intro id hid
    exact (hsingles id).2 hid
  · intro base n hform
    exact (hforms base n).2 hform

/-- What is supplied is not added again. -/
theorem insert_of_supplies {id : String} (h : id ≠ "" → d.Supplies id) (u : TransUnit) :
    d.insert id u = (d, false) := by
  unfold insert
  by_cases hid : id = ""
  · simp [hid]
  · have hempty : id.isEmpty = false := by simpa using hid
    have hform {base : String} {i : Nat} {g : PluralGroup} (hbase : d.units.get? base = some (.plural g))
        (hi : g.forms.contains i = true) : d.insertForm base g i u = (d, false) := by
      simp [insertForm, PluralGroup.insertForm, hi]
    simp only [hempty, Bool.false_eq_true, if_false]
    cases hsplit : splitPluralForm id with
    | none =>
      simp only
      rcases (h hid).plain hsplit with ⟨v, hv⟩ | ⟨g, hg, hi⟩
      · rw [hv]
      · rw [hg]
        exact hform hg hi
    | some form =>
      obtain ⟨base, i⟩ := form
      simp only
      rcases (h hid).form base i hsplit with ⟨g, hg, hi⟩ | ⟨v, hv⟩
      · rw [hg]
        exact hform hg hi
      · rw [hv]

/-- Changes that do nothing to a catalog do nothing one after the other. -/
theorem foldl_change_idle {α : Type} (change : Document → α → Document × Bool) {as : List α}
    (h : ∀ a ∈ as, change d a = (d, false)) :
    as.foldl (fun (d, changed) a =>
      let (d, now) := change d a
      (d, changed || now)) (d, false) = (d, false) := by
  induction as with
  | nil => rfl
  | cons a as ih =>
    rw [List.foldl_cons]
    simp only [h a List.mem_cons_self, Bool.or_self]
    exact ih fun a' ha' => h a' (List.mem_cons_of_mem a ha')

theorem not_changed_of_supplies (writesTarget : Bool) {additions : List Addition}
    (h : ∀ a ∈ additions, a.key.id ≠ "" → d.Supplies a.key.id) :
    (d.insertAll settings writesTarget additions).2 = false := by
  have hidle := foldl_change_idle (fun d (a : Addition) =>
    d.insert a.key.id (a.unit settings writesTarget)) fun a ha =>
      insert_of_supplies (h a ha) (a.unit settings writesTarget)
  exact congrArg Prod.snd hidle

end Document

end Catalog

open Catalog (Addition Document Header Location Stage Visit WriteOutcome WriterSettings unreadable?
  visitAll)

namespace Batch

variable {b : Batch} {s : FileTree} {v w : Visit} {group : Location × List Addition}
variable {path : String}

/-- The same run in the files that it left. -/
def again (b : Batch) : Batch := { b with tree := b.outcome.tree }

/-- Additions to a catalog in which all names are names, and in which what repeats an identifier
keeps its place. -/
def Stable (b : Batch) (a : Addition) : Prop :=
  ∀ path text d, b.path? a.location = some path → b.tree.read path = .ok text →
    Document.parse path text = .ok d → Document.NamesIn text ∧ d.InPlace b.settings.layout

theorem rereadable_of_load {a : Addition} (h : b.Stable a) (hpath : b.path? a.location = some path)
    {d : Document} (hload : Document.load b.tree path = .ok d) :
    d.Rereadable b.settings.layout := by
  unfold Document.load at hload
  split at hload
  · next text hread =>
    obtain ⟨hnamed, hplace⟩ := h path text d hpath hread hload
    exact .of_holds ⟨text, hread, hload, hnamed⟩ hplace
  · cases hload
    exact .empty
  · cases hload

/-- The catalogs of a run in other files: they have at least what they had, and can be read
again. -/
def Grown (b : Batch) (s s' : FileTree) : Prop :=
  ∀ v ∈ b.visits, ∀ d, Document.load s v.path = .ok d → d.Rereadable b.settings.layout →
    ∃ d', Document.load s' v.path = .ok d' ∧ d'.Rereadable b.settings.layout ∧ d.Grows d'

theorem Grown.refl (b : Batch) (s : FileTree) : b.Grown s s :=
  fun _ _ d hload hd => ⟨d, hload, hd, .refl d⟩

theorem Grown.trans {s' s'' : FileTree} (h : b.Grown s s') (h' : b.Grown s' s'') :
    b.Grown s s'' := by
  intro v hv d hload hd
  obtain ⟨d', hload', hd', hgrows⟩ := h v hv d hload hd
  obtain ⟨d'', hload'', hd'', hgrows'⟩ := h' v hv d' hload' hd'
  exact ⟨d'', hload'', hd'', hgrows.trans hgrows'⟩

section Separate

variable (h : b.Separate) (hdry : b.settings.dryRun = false)
include h hdry

/-- Additions to a catalog leave all catalogs with at least what they had. -/
theorem grown_visit (hs : Stage b.tree s) (hv : v ∈ b.visits) :
    b.Grown s (v.alone b.settings s).tree := by
  have hunhindered := unhindered_visits h
  intro w hw d hload hd
  obtain ⟨place, hplace⟩ := Option.isSome_iff_exists.1 (hunhindered.leads v hv)
  obtain ⟨other, hother⟩ := Option.isSome_iff_exists.1 (hunhindered.leads w hw)
  have hstage := hs.visit b.settings hplace
  by_cases hsame : place = other
  · subst hsame
    have hload' := Catalog.load_of_find hload ((FileTree.Agrees.refl s place).find hs.closed hs.closed
      (hs.goal hother) (hs.goal hplace))
    rcases Visit.alone_cases hdry hs.closed (hs.goal hplace) with ⟨e, -, halone⟩ |
      ⟨e, hread, ⟨-, halone⟩ | ⟨-, -, halone⟩ | ⟨-, t', hsaved, halone⟩⟩
    · rw [halone]
      exact ⟨d, hload, hd, .refl d⟩
    · rw [halone]
      exact ⟨d, hload, hd, .refl d⟩
    · rw [halone]
      exact ⟨d, hload, hd, .refl d⟩
    · obtain ⟨group, -, path, -, rfl⟩ := mem_visits.1 hv
      rw [hload'] at hread
      cases hread
      rw [halone] at hstage ⊢
      obtain ⟨d', hread', hd', hgrows⟩ := hd.insertAll (hsaved.read hs.closed (hstage.goal hother))
      exact ⟨d', hread', hd', (Document.grows_insertAll _ _ _ d).trans hgrows⟩
  · have hagrees := hs.agrees_of_ne b.settings (hunhindered.clear hw hother) hv hplace hsame
    have hfind := hagrees.find hs.closed hstage.closed (hs.goal hother) (hstage.goal hother)
    exact ⟨d, Catalog.load_of_find hload hfind, hd, .refl d⟩

theorem grown_visitAll {o : WriteOutcome} (hs : Stage b.tree o.tree) {vs : List Visit}
    (hvs : ∀ v ∈ vs, v ∈ b.visits) :
    Stage b.tree (visitAll b.settings o vs).tree ∧
      b.Grown o.tree (visitAll b.settings o vs).tree := by
  induction vs generalizing o with
  | nil => exact ⟨hs, .refl b o.tree⟩
  | cons v vs ih =>
    have hv := hvs v List.mem_cons_self
    obtain ⟨place, hplace⟩ := Option.isSome_iff_exists.1 ((unhindered_visits h).leads v hv)
    have hgrown := grown_visit h hdry hs hv
    have hstage := hs.visit b.settings hplace
    rw [← Visit.tree_run] at hgrown hstage
    obtain ⟨hend, hrest⟩ := ih hstage fun w hw => hvs w (List.mem_cons_of_mem v hw)
    exact ⟨hend, hgrown.trans hrest⟩

/-- Additions to a catalog without a failure are in it afterwards, or in the way of a unit that was
there. -/
theorem supplies_visit (hs : Stage b.tree s) (hv : visit b.settings path group ∈ b.visits)
    {d : Document} (hload : Document.load s (visit b.settings path group).path = .ok d)
    (hd : d.Rereadable b.settings.layout)
    (hok : ((visit b.settings path group).alone b.settings s).failures = []) :
    ∃ d', Document.load ((visit b.settings path group).alone b.settings s).tree path = .ok d' ∧
      d'.Rereadable b.settings.layout ∧
      ∀ a ∈ group.2, a.key.id ≠ "" → d'.Supplies a.key.id := by
  obtain ⟨place, hplace⟩ := Option.isSome_iff_exists.1 ((unhindered_visits h).leads _ hv)
  have hstage := hs.visit b.settings hplace
  rcases Visit.alone_cases hdry hs.closed (hs.goal hplace) with ⟨e, hread, -⟩ |
    ⟨e, hread, hcases⟩ <;> rw [hload] at hread <;> cases hread
  rcases hcases with ⟨hnot, halone⟩ | ⟨-, -, halone⟩ | ⟨-, t', hsaved, halone⟩
  · rw [halone]
    refine ⟨d, hload, hd, ?_⟩
    intro a ha hid
    have hsupplies := Document.supplies_insertAll (d := d) b.settings
      ((Header.resolve d.metadata group.1.package group.1.locale).writesTarget group.1.locale)
      group.2 ha hid
    rw [Document.insertAll_eq_of_not_changed b.settings _ group.2 hnot] at hsupplies
    exact hsupplies
  · rw [halone] at hok
    cases hok
  · rw [halone] at hstage ⊢
    obtain ⟨d', hread', hd', hgrows⟩ := hd.insertAll (hsaved.read hs.closed (hstage.goal hplace))
    refine ⟨d', hread', hd', ?_⟩
    intro a ha hid
    exact (Document.supplies_insertAll b.settings _ group.2 ha hid).grow hgrows

/-- After a run without failures all catalogs have what was to be added. -/
theorem supplies_outcome (hstable : ∀ a ∈ b.additions, b.Stable a) (hok : b.outcome.failures = [])
    (hgroup : group ∈ b.groups) (hpath : b.path? group.1 = some path) :
    ∃ d, Document.load b.outcome.tree path = .ok d ∧
      ∀ a ∈ group.2, a.key.id ≠ "" → d.Supplies a.key.id := by
  have hunhindered := unhindered_visits h
  have hv : visit b.settings path group ∈ b.visits := mem_visits.2 ⟨group, hgroup, path, hpath, rfl⟩
  rw [outcome_eq h] at hok ⊢
  -- a catalog that could not be read would be a failure
  obtain ⟨d₀, hload₀⟩ : ∃ d, Document.load b.tree path = .ok d := by
    obtain ⟨-, hunreadable⟩ := Catalog.failures_of_unreadable hunhindered b.settings
    rw [hok, List.filter_nil, eq_comm, List.filterMap_eq_nil_iff] at hunreadable
    have hnone := hunreadable _ hv
    exact Catalog.unreadable?_eq_none.1 hnone
  obtain ⟨a, ha, hlocation⟩ := exists_mem_of_mem_groups hgroup
  have hd₀ := rereadable_of_load (hstable a ha) (hlocation ▸ hpath) hload₀
  obtain ⟨before, after, hsplit⟩ := List.append_of_mem hv
  have hbefore : ∀ w ∈ before, w ∈ b.visits := by
    intro w hw
    rw [hsplit]
    exact List.mem_append_left _ hw
  have hafter : ∀ w ∈ after, w ∈ b.visits := by
    intro w hw
    rw [hsplit]
    exact List.mem_append_right _ (List.mem_cons_of_mem _ hw)
  obtain ⟨hstage₁, hgrown₁⟩ := grown_visitAll h hdry (o := { tree := b.tree })
    (.refl h.proper.closed) hbefore
  obtain ⟨d₁, hload₁, hd₁, -⟩ := hgrown₁ _ hv d₀ hload₀ hd₀
  rw [hsplit, Catalog.visitAll_append_cons] at hok ⊢
  generalize visitAll b.settings { tree := b.tree } before = o at hstage₁ hload₁ hok ⊢
  have hok₁ : ((visit b.settings path group).alone b.settings o.tree).failures = [] := by
    rw [List.eq_nil_iff_forall_not_mem] at hok ⊢
    intro e he
    refine hok e (Catalog.mem_failures_visitAll ?_ after)
    rw [Catalog.failures_run]
    exact List.mem_append_right _ he
  obtain ⟨d₂, hload₂, hd₂, hsupplies⟩ := supplies_visit h hdry hstage₁ hv hload₁ hd₁ hok₁
  obtain ⟨place, hplace⟩ := Option.isSome_iff_exists.1 (hunhindered.leads _ hv)
  have hstage₂ := hstage₁.visit b.settings hplace
  rw [← Visit.tree_run] at hstage₂ hload₂
  obtain ⟨-, hgrown₂⟩ := grown_visitAll h hdry hstage₂ hafter
  obtain ⟨d₃, hload₃, -, hgrows⟩ := hgrown₂ _ hv d₂ hload₂ hd₂
  exact ⟨d₃, hload₃, fun a ha hid => (hsupplies a ha hid).grow hgrows⟩

/-- A run that was without failures finds nothing to do when it is made again: no file is touched,
and all are left as they are. -/
theorem outcome_again (hstable : ∀ a ∈ b.additions, b.Stable a) (hok : b.outcome.failures = []) :
    b.again.outcome = { tree := b.outcome.tree } := by
  have hunderway := underway_outcome h
  have hidle : ∀ v ∈ b.again.visits,
      v.alone b.settings b.outcome.tree = { tree := b.outcome.tree } := by
    intro v hv
    obtain ⟨group, hgroup, path, hpath, rfl⟩ := mem_visits.1 hv
    obtain ⟨a, ha, hlocation⟩ := exists_mem_of_mem_groups hgroup
    have hroute : b.again.path? group.1 = b.path? group.1 := hlocation ▸ hunderway.path? h ha
    obtain ⟨d, hload, hsupplies⟩ :=
      supplies_outcome h hdry hstable hok hgroup (hroute.symm.trans hpath)
    have hnot : ((visit b.settings path group).change d).2 = false :=
      Document.not_changed_of_supplies _ hsupplies
    exact Visit.alone_of_not_changed hload hnot
  have hrun : b.again.outcome = visitAll b.settings { tree := b.outcome.tree } b.again.visits := by
    refine outcome_eq_visitAll (b := b.again) (Q := fun s => s = b.outcome.tree) rfl ?_ ?_
    · rintro s rfl a -
      rfl
    · rintro s rfl v hv
      change (v.alone b.settings b.outcome.tree).tree = b.outcome.tree
      rw [hidle v hv]
  rw [hrun]
  generalize b.again.visits = vs at hidle
  induction vs with
  | nil => rfl
  | cons v vs ih =>
    have hself := Visit.run_eq_self (o := { tree := b.outcome.tree }) (hidle v List.mem_cons_self)
    rw [Catalog.visitAll_cons, hself]
    exact ih fun w hw => hidle w (List.mem_cons_of_mem v hw)

end Separate

/-! ## Runs on one known catalog -/

theorem stable_of_namesIn (horder : b.settings.layout.orderById = false) {a : Addition}
    (h : ∀ text ∈ (b.path? a.location).bind fun path => (b.tree.read path).toOption,
      Document.NamesIn text) : b.Stable a := by
  intro path text d hpath hread _
  exact ⟨h text (by simp [hpath, hread, Except.toOption]), fun _ _ => horder⟩

/-- Units and forms that share an identifier are added to a catalog and to a new one. -/
theorem outcome_again_shared :
    let b := ofCatalog {} "<x><file><body><trans-unit id='a'/></body></file></x>"
      [("Main", "a[0]"), ("Main", "b[1]"), ("Main", "b"), ("New", "b"), ("New", "b[1]")]
    b.outcome.touched = [mainFile, "/App/Resources/Private/Translations/de/New.xlf"] ∧
      b.again.outcome = { tree := b.outcome.tree } := by
  intro b
  have hchecks : b.outcome.touched =
        [mainFile, "/App/Resources/Private/Translations/de/New.xlf"] ∧
      b.Named ∧ b.outcome.failures.isEmpty = true ∧ ∀ a ∈ b.additions,
        ∀ text ∈ (b.path? a.location).bind fun path => (b.tree.read path).toOption,
          Document.NamesIn text := by decide +kernel
  obtain ⟨htouched, hnamed, hsucceeds, hnames⟩ := hchecks
  exact ⟨htouched, outcome_again hnamed.separate rfl
    (fun a ha => stable_of_namesIn rfl (hnames a ha)) (List.isEmpty_iff.1 hsucceeds)⟩

end Batch

end TranslationAudit
