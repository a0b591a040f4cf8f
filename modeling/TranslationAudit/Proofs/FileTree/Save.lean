import TranslationAudit.Proofs.FileTree.Place
import TranslationAudit.Proofs.Path.Parent

/-! # Trees after a file was saved

* `FileTree.Saved`: a tree in which a file was saved at a place, with the directories that lead to
  it; `FileTree.save_cases` tells when a file is saved, by the place that its path goes to.
* `FileTree.Agrees`: trees that are alike at a place, for reading and for saving.
* `FileTree.Saved.agrees`, `FileTree.Saved.agrees_other`: what is saved at one place in trees that
  are alike there, and what is left alone at other places.
* `FileTree.SameKinds`: changes that make no files and no directories.
-/

namespace TranslationAudit

namespace FileTree

variable {t t' : FileTree}

/-! ## Making directories -/

/-- Something is missing on the way to a place in a directory in which nothing can be made. -/
def Sealed (t : FileTree) (place : List String) : Prop :=
  ∃ front s, front ++ [s] <+: place ∧ t.node? front = some .locked ∧ t.node? (front ++ [s]) = none

theorem sealed_concat {place : List String} {s : String} :
    t.Sealed (place ++ [s]) ↔
      t.Sealed place ∨ (t.node? place = some .locked ∧ t.node? (place ++ [s]) = none) := by
  constructor
  · rintro ⟨front, r, hfront, hlocked, hnone⟩
    rcases List.prefix_concat_iff.1 hfront with heq | hfront
    · obtain ⟨rfl, hr⟩ := List.append_inj' heq rfl
      cases hr
      exact .inr ⟨hlocked, hnone⟩
    · exact .inl ⟨front, r, hfront, hlocked, hnone⟩
  · rintro (⟨front, r, hfront, hlocked, hnone⟩ | ⟨hlocked, hnone⟩)
    · exact ⟨front, r, hfront.trans (List.prefix_append _ _), hlocked, hnone⟩
    · exact ⟨place, s, List.prefix_rfl, hlocked, hnone⟩

/-- A tree in which the directories up to a place were made. -/
structure Made (t : FileTree) (place : List String) (t' : FileTree) : Prop where
  upTo : ∀ front, front <+: place → t'.node? front = some ((t.node? front).getD .directory)
  other : ∀ front, ¬front <+: place → t'.node? front = t.node? front

theorem not_concat_le (place : List String) (s : String) : ¬place ++ [s] <+: place := by
  intro h
  have hlength := h.length_le
  rw [List.length_append, List.length_singleton] at hlength
  omega

theorem Made.concat {place : List String} {s : String} (h : t.Made place t')
    (hhere : t'.node? (place ++ [s]) = some ((t.node? (place ++ [s])).getD .directory)) :
    t.Made (place ++ [s]) t' where
  upTo front hfront := by
    rcases List.prefix_concat_iff.1 hfront with rfl | hfront
    · exact hhere
    · exact h.upTo front hfront
  other front hfront := h.other front fun hplace => hfront (hplace.trans (List.prefix_append _ _))

/-- A directory that is missing at the end is made last. -/
theorem Made.put_concat {place : List String} {s : String} (h : t.Made place t')
    (hnone : t.node? (place ++ [s]) = none) :
    t.Made (place ++ [s]) (t'.put (place ++ [s]) .directory) where
  upTo front hfront := by
    rcases List.prefix_concat_iff.1 hfront with rfl | hfront
    · rw [node?_put_self (by simp), hnone]
      rfl
    · have hne : front ≠ place ++ [s] := by
        rintro rfl
        exact not_concat_le place s hfront
      rw [node?_put_of_ne hne, h.upTo front hfront]
  other front hfront := by
    have hne : front ≠ place ++ [s] := fun heq => hfront (heq ▸ List.prefix_rfl)
    have hplace : place <+: place ++ [s] := List.prefix_append _ _
    rw [node?_put_of_ne hne, h.other front fun hstem => hfront (hstem.trans hplace)]

/-- Makes the directories up to a place. -/
def makeAlong (t : FileTree) (place : List String) : Except FileError (FileTree × List String) :=
  (place.map Path.Component.name).foldlM makeStep (t, [])

theorem makeAlong_concat (place : List String) (s : String) :
    t.makeAlong (place ++ [s]) = (t.makeAlong place).bind fun state => makeStep state (.name s) := by
  unfold makeAlong
  rw [List.map_append, List.foldlM_append]
  simp only [List.map_cons, List.map_nil, List.foldlM_cons, List.foldlM_nil, bind_pure]
  rfl

theorem makeStep_of_isSome {here next : List String} {c : Path.Component}
    (hstep : t.step here c = .ok next) (hnext : (t.node? next).isSome = true) :
    makeStep (t, here) c = .ok (t, next) := by
  simp [makeStep, hstep, Except.bind, hnext]

/-- Nothing is made where everything is there. -/
theorem makeAlong_of_ledTo {place : List String} (h : t.LedTo place)
    (hplace : (t.node? place).isSome = true) : t.makeAlong place = .ok (t, place) := by
  induction place using List.reverseRecOn with
  | nil => rfl
  | append_singleton place s ih =>
    obtain ⟨hled, n, hn, hdirectory⟩ := ledTo_concat.1 h
    rw [makeAlong_concat, ih hled (by simp [hn])]
    exact makeStep_of_isSome (by simp [step, hn, hdirectory]) hplace

/-- The directories up to a place are made if no file stands in the way and nothing is missing in
a locked directory. -/
theorem makeAlong_cases (place : List String) (hopen : ∀ front, front <+: place →
      ∀ n, t.node? front = some n → n.isDirectory = true) :
    (¬t.Sealed place ∧ ∃ t', t.makeAlong place = .ok (t', place) ∧ t.Made place t') ∨
      (t.Sealed place ∧ t.makeAlong place = .error .notFound) := by
  induction place using List.reverseRecOn with
  | nil =>
    refine .inl ⟨?_, t, rfl, ?_, fun _ _ => rfl⟩
    · rintro ⟨front, s, hfront, -⟩
      simp at hfront
    · intro front hfront
      rw [List.prefix_nil.1 hfront]
      rfl
  | append_singleton place s ih =>
    rw [makeAlong_concat, sealed_concat]
    have hplace : place <+: place ++ [s] := List.prefix_append _ _
    rcases ih fun front hfront => hopen front (hfront.trans hplace) with
      ⟨hunsealed, t₁, hmake, hmade⟩ | ⟨hsealed, herror⟩
    · rw [hmake]
      have hhere := hmade.upTo place List.prefix_rfl
      have hnext := hmade.other _ (not_concat_le place s)
      have hdirectory : ((t.node? place).getD .directory).isDirectory = true := by
        cases hn : t.node? place with
        | none => rfl
        | some n => exact hopen place hplace n hn
      have hstep : t₁.step place (.name s) = .ok (place ++ [s]) := by
        simp [step, hhere, hdirectory]
      have hlocked : t₁.node? place = some .locked ↔ t.node? place = some .locked := by
        rw [hhere]
        cases t.node? place <;> simp
      -- the place itself is there already, or is made unless its directory is locked
      cases hn : t.node? (place ++ [s]) with
      | some n =>
        refine .inl ⟨by simp [hunsealed], t₁, ?_, hmade.concat (by rw [hnext, hn]; rfl)⟩
        exact makeStep_of_isSome hstep (by simp [hnext, hn])
      | none =>
        by_cases hsealed : t.node? place = some .locked
        · refine .inr ⟨.inr ⟨hsealed, rfl⟩, ?_⟩
          simp [makeStep, Except.bind, hstep, hnext, hn, hlocked.2 hsealed]
        · refine .inl ⟨by simp [hunsealed, hsealed], _, ?_, hmade.put_concat hn⟩
          simp [makeStep, Except.bind, hstep, hnext, hn, mt hlocked.1 hsealed]
    · rw [herror]
      exact .inr ⟨.inl hsealed, rfl⟩

theorem LedTo.of_keepsDirectories {place : List String} (h : t.LedTo place)
    (hkeeps : t.KeepsDirectories t') : t'.LedTo place := by
  intro front name rest hplace
  obtain ⟨n, hn, hdirectory⟩ := h front name rest hplace
  exact ⟨n, hkeeps front n hn hdirectory, hdirectory⟩

theorem Made.extends {place : List String} (h : t.Made place t') : t.Extends t' := by
  intro front n hn
  by_cases hfront : front <+: place
  · rw [h.upTo front hfront, hn]
    rfl
  · rw [h.other front hfront, hn]

section Made

variable {place : List String} (h : t.Made place t') (hopen : ∀ front, front <+: place →
  ∀ n, t.node? front = some n → n.isDirectory = true)
include h hopen

theorem Made.directory {front : List String} (hfront : front <+: place) :
    ∃ n, t'.node? front = some n ∧ n.isDirectory = true := by
  refine ⟨_, h.upTo front hfront, ?_⟩
  cases hn : t.node? front with
  | none => rfl
  | some n => exact hopen front hfront n hn

theorem Made.closed (hclosed : t.Closed) : t'.Closed := by
  intro other n hn
  by_cases hother : other <+: place
  · exact ledTo_of_directories fun front hfront _ => h.directory hopen (hfront.trans hother)
  · rw [h.other other hother] at hn
    exact (hclosed other n hn).of_keepsDirectories h.extends.keepsDirectories

end Made

/-- A step that follows no name leads to a directory. -/
theorem Closed.directory_of_step (h : t.Closed) {here next : List String} {c : Path.Component}
    (hback : ∀ s, c ≠ .name s) (hstep : t.step here c = .ok next) :
    ∃ n, t.node? next = some n ∧ n.isDirectory = true := by
  obtain ⟨n, hn, hdirectory⟩ := step_eq_ok hstep
  unfold step at hstep
  simp only [hn, hdirectory, if_true] at hstep
  cases c with
  | name s => exact absurd rfl (hback s)
  | root =>
    cases hstep
    exact ⟨.directory, rfl, rfl⟩
  | current =>
    cases hstep
    exact ⟨n, hn, hdirectory⟩
  | parent =>
    cases hstep
    by_cases heq : here.dropLast = here
    · exact ⟨n, by rw [heq, hn], hdirectory⟩
    · exact (h here n hn).directory (List.dropLast_prefix here) heq

theorem makeSteps_of_goal (h : t.Closed) {cs : List Path.Component} {place : List String}
    (hgoal : cs.foldlM t.reach [] = some place) : cs.foldlM makeStep (t, []) = t.makeAlong place := by
  refine foldlM_of_reach ?_ hgoal
  intro here c next hback hstep
  obtain ⟨hhere, hnext⟩ := h.ledTo_of_step hstep
  obtain ⟨n, hn, -⟩ := step_eq_ok hstep
  obtain ⟨m, hm, -⟩ := h.directory_of_step hback hstep
  have hsome : (t.node? next).isSome = true := by rw [hm]; rfl
  have hfrom := makeAlong_of_ledTo hhere (by simp [hn])
  have hto := makeAlong_of_ledTo hnext hsome
  unfold makeAlong at hfrom hto
  rw [hfrom, hto]
  exact makeStep_of_isSome hstep hsome

/-! ## Saving -/

/-- A tree in which a file was saved. -/
structure Saved (t : FileTree) (place : List String) (text : String) (t' : FileTree) : Prop where
  here : t'.node? place = some (.text text)
  /-- No directory was there. -/
  free : ∀ n, t.node? place = some n → n.isDirectory = false
  /-- No file stood in the way. -/
  clear : ∀ front, front <+: place → front ≠ place → ∀ n, t.node? front = some n →
    n.isDirectory = true
  unsealed : ¬t.Sealed place
  above : ∀ front, front <+: place → front ≠ place →
    t'.node? front = some ((t.node? front).getD .directory)
  other : ∀ front, ¬front <+: place → t'.node? front = t.node? front

/-- A path to a place where no directory is ends with a name. -/
theorem exists_name_of_goal {p : String} {place : List String} (h : t.Closed)
    (hgoal : t.goal p = some place)
    (hfree : ∀ n, t.node? place = some n → n.isDirectory = false) :
    ∃ front parent s, Path.components p = front ++ [.name s] ∧ place = parent ++ [s] ∧
      front.foldlM t.reach [] = some parent := by
  unfold goal at hgoal
  rcases List.eq_nil_or_concat (Path.components p) with hnil | ⟨front, c, hconcat⟩
  · rw [hnil] at hgoal
    cases hgoal
    cases hfree .directory rfl
  · rw [List.concat_eq_append] at hconcat
    rw [hconcat, List.foldlM_append] at hgoal
    obtain ⟨parent, hparent, hc⟩ := Option.bind_eq_some_iff.1 hgoal
    simp only [List.foldlM_cons, List.foldlM_nil, bind_pure] at hc
    rcases reach_eq_some hc with ⟨s, rfl, rfl⟩ | ⟨hback, hstep⟩
    · exact ⟨front, parent, s, hconcat, rfl, hparent⟩
    · obtain ⟨n, hn, hdirectory⟩ := h.directory_of_step hback hstep
      rw [hfree n hn] at hdirectory
      cases hdirectory

/-- A file is written into a directory, unless it has to be made in a locked one. -/
theorem write_eq {p s text : String} {front : List Path.Component} {parent : List String}
    {n : FileNode} (hcomponents : Path.components p = front ++ [.name s])
    (hsteps : front.foldlM t.step [] = .ok parent) (hn : t.node? parent = some n)
    (hdirectory : n.isDirectory = true)
    (hfree : ∀ m, t.node? (parent ++ [s]) = some m → m.isDirectory = false) :
    t.write p text =
      if t.node? parent = some .locked ∧ t.node? (parent ++ [s]) = none then .error .notFound
      else .ok (t.put (parent ++ [s]) (.text text)) := by
  unfold write
  have hlast : (Path.components p).getLast? = some (.name s) := by rw [hcomponents]; simp
  have hdrop : (Path.components p).dropLast = front := by rw [hcomponents, List.dropLast_concat]
  simp only [hlast, hdrop, hsteps, Except.bind]
  cases hm : t.node? (parent ++ [s]) with
  | none =>
    cases n with
    | directory => simp [hn]
    | locked => simp [hn]
    | text contents => cases hdirectory
    | binary bytes => cases hdirectory
  | some m => simp [hn, hfree m hm]

theorem makeDirectories_of_goal (h : t.Closed) {p : String} {front : List Path.Component}
    (hcomponents : Path.components p = front) {place : List String}
    (hgoal : front.foldlM t.reach [] = some place) :
    t.makeDirectories p = (t.makeAlong place).bind fun (t, place) =>
      if (t.node? place).any FileNode.isDirectory then .ok t else .error .exists := by
  rw [makeDirectories, hcomponents, makeSteps_of_goal h hgoal]

/-- A file that can be read, or that is missing, is saved unless it is missing in a locked
directory, or has to be made in one that is. -/
theorem save_cases (h : t.Closed) {p : String} {place : List String}
    (hgoal : t.goal p = some place) (hblocked : ¬t.Blocked place)
    (hfree : ∀ n, t.node? place = some n → n.isDirectory = false) (text : String) :
    (∃ t', t.save p text = .ok t' ∧ t.Saved place text t') ∨
      (t.Sealed place ∧ t.save p text = .error .notFound) := by
  obtain ⟨front, parent, s, hcomponents, rfl, hparent⟩ := exists_name_of_goal h hgoal hfree
  have hopen : ∀ above, above <+: parent → ∀ n, t.node? above = some n → n.isDirectory = true := by
    intro above habove n hn
    cases hdirectory : n.isDirectory with
    | true => rfl
    | false =>
      refine absurd ⟨above, habove.trans (List.prefix_append _ _), ?_, n, hn, hdirectory⟩ hblocked
      rintro rfl
      exact not_concat_le parent s habove
  rw [sealed_concat]
  unfold save
  rw [makeDirectories_of_goal h (Path.components_parent hcomponents) hparent]
  rcases makeAlong_cases parent hopen with ⟨hunsealed, t₁, hmake, hmade⟩ | ⟨hsealed, herror⟩
  · obtain ⟨n, hn, hdirectory⟩ := hmade.directory hopen List.prefix_rfl
    have hclosed := hmade.closed hopen h
    have hsteps : front.foldlM t₁.step [] = .ok parent := by
      rw [steps_of_goal hclosed (hmade.extends.keepsDirectories.reaches hparent)]
      exact along_of_ledTo (hclosed parent n hn)
    have hnext := hmade.other _ (not_concat_le parent s)
    have hwrite : t₁.write p text = _ :=
      write_eq hcomponents hsteps hn hdirectory (by rw [hnext]; exact hfree)
    have hlocked : t₁.node? parent = some .locked ↔ t.node? parent = some .locked := by
      rw [hmade.upTo parent List.prefix_rfl]
      cases t.node? parent <;> simp
    rw [hmake]
    simp only [Except.bind, hn, Option.any_some, hdirectory, if_true]
    rw [hwrite, hnext]
    by_cases hsealed : t.node? parent = some .locked ∧ t.node? (parent ++ [s]) = none
    · exact .inr ⟨.inr hsealed, if_pos ⟨hlocked.2 hsealed.1, hsealed.2⟩⟩
    · refine .inl ⟨_, if_neg fun h => hsealed ⟨hlocked.1 h.1, h.2⟩, ?_⟩
      have hwithin {other : List String} (hother : other <+: parent ++ [s])
          (hne : other ≠ parent ++ [s]) : other <+: parent :=
        (List.prefix_concat_iff.1 hother).resolve_left hne
      refine ⟨node?_put_self (by simp) _, hfree, ?_, ?_, ?_, ?_⟩
      · intro other hother hne
        exact hopen other (hwithin hother hne)
      · rw [sealed_concat]
        exact fun h => h.elim hunsealed hsealed
      · intro other hother hne
        rw [node?_put_of_ne hne, hmade.upTo other (hwithin hother hne)]
      · intro other hother
        have hne : other ≠ parent ++ [s] := fun heq => hother (heq ▸ List.prefix_rfl)
        rw [node?_put_of_ne hne, hmade.other]
        exact fun hstem => hother (hstem.trans (List.prefix_append _ _))
  · rw [herror]
    exact .inr ⟨.inl hsealed, rfl⟩

/-! ## What a change leaves -/

/-- What stands somewhere stays there, though files may change. -/
def Persists (t t' : FileTree) : Prop :=
  ∀ place n, t.node? place = some n → ∃ n', t'.node? place = some n' ∧
    n'.isDirectory = n.isDirectory ∧ (n.isDirectory = true → n' = n)

theorem Persists.refl (t : FileTree) : t.Persists t := fun _ n hn => ⟨n, hn, rfl, fun _ => rfl⟩

theorem Persists.trans {t'' : FileTree} (h : t.Persists t') (h' : t'.Persists t'') :
    t.Persists t'' := by
  intro place n hn
  obtain ⟨n', hn', hkind, hsame⟩ := h place n hn
  obtain ⟨n'', hn'', hkind', hsame'⟩ := h' place n' hn'
  refine ⟨n'', hn'', hkind'.trans hkind, fun hdirectory => ?_⟩
  rw [hsame' (hkind.trans hdirectory), hsame hdirectory]

theorem Persists.keepsDirectories (h : t.Persists t') : t.KeepsDirectories t' := by
  intro place n hn hdirectory
  obtain ⟨n', hn', -, hsame⟩ := h place n hn
  rw [hn', hsame hdirectory]

theorem Persists.ne_none (h : t.Persists t') {place : List String}
    (hplace : t.node? place ≠ none) : t'.node? place ≠ none := by
  obtain ⟨n, hn⟩ := Option.ne_none_iff_exists'.1 hplace
  obtain ⟨n', hn', -⟩ := h place n hn
  simp [hn']

/-- Trees that are alike at a place, for reading and for saving. -/
structure Agrees (t t' : FileTree) (place : List String) : Prop where
  node : t'.node? place = t.node? place
  blocked : t'.Blocked place ↔ t.Blocked place
  sealed : t'.Sealed place ↔ t.Sealed place

namespace Agrees

variable {place : List String}

theorem refl (t : FileTree) (place : List String) : t.Agrees t place := ⟨rfl, .rfl, .rfl⟩

theorem symm (h : t.Agrees t' place) : t'.Agrees t place :=
  ⟨h.node.symm, h.blocked.symm, h.sealed.symm⟩

theorem trans {t'' : FileTree} (h : t.Agrees t' place) (h' : t'.Agrees t'' place) :
    t.Agrees t'' place :=
  ⟨h'.node.trans h.node, h'.blocked.trans h.blocked, h'.sealed.trans h.sealed⟩

theorem find (h : t.Agrees t' place) (hclosed : t.Closed) (hclosed' : t'.Closed) {p q : String}
    (hgoal : t.goal p = some place) (hgoal' : t'.goal q = some place) : t'.find q = t.find p := by
  have hcases := find_cases hclosed' hgoal'
  rw [h.node, h.blocked] at hcases
  rcases find_cases hclosed hgoal with ⟨n, hn, hfind⟩ | ⟨hnone, hblocked, hfind⟩ |
    ⟨hnone, hblocked, hfind⟩
  · simpa [hn, hfind] using hcases
  · simpa [hnone, hblocked, hfind] using hcases
  · simpa [hnone, hblocked, hfind] using hcases

end Agrees

namespace Saved

variable {place : List String} {text : String} (h : t.Saved place text t')
include h

theorem persists : t.Persists t' := by
  intro other n hn
  by_cases hother : other <+: place
  · by_cases heq : other = place
    · subst heq
      have hfile := h.free n hn
      exact ⟨_, h.here, hfile.symm, fun hdirectory => by rw [hfile] at hdirectory; cases hdirectory⟩
    · exact ⟨n, by rw [h.above other hother heq, hn]; rfl, rfl, fun _ => rfl⟩
  · exact ⟨n, by rw [h.other other hother, hn], rfl, fun _ => rfl⟩

theorem directory {front : List String} (hfront : front <+: place) (hne : front ≠ place) :
    ∃ n, t'.node? front = some n ∧ n.isDirectory = true := by
  refine ⟨_, h.above front hfront hne, ?_⟩
  cases hn : t.node? front with
  | none => rfl
  | some n => exact h.clear front hfront hne n hn

theorem closed (hclosed : t.Closed) : t'.Closed := by
  intro other n hn
  by_cases hother : other <+: place
  · refine ledTo_of_directories fun front hfront hne => h.directory (hfront.trans hother) ?_
    rintro rfl
    exact hne (hfront.eq_of_length_le hother.length_le)
  · rw [h.other other hother] at hn
    exact (hclosed other n hn).of_keepsDirectories h.persists.keepsDirectories

theorem ne_none {front : List String} (hfront : front <+: place) : t'.node? front ≠ none := by
  by_cases heq : front = place
  · simp [heq, h.here]
  · simp [h.above front hfront heq]

theorem not_blocked : ¬t'.Blocked place := by
  rintro ⟨front, hfront, hne, n, hn, hfile⟩
  obtain ⟨m, hm, hdirectory⟩ := h.directory hfront hne
  rw [hn] at hm
  cases hm
  rw [hfile] at hdirectory
  cases hdirectory

theorem not_sealed : ¬t'.Sealed place := by
  rintro ⟨front, s, hfront, -, hnone⟩
  exact h.ne_none hfront hnone

/-- Saving one text gives trees that are alike at its place. -/
theorem agrees {t₁ t₁' : FileTree} (h₁ : t₁.Saved place text t₁') : t'.Agrees t₁' place where
  node := h₁.here.trans h.here.symm
  blocked := iff_of_false h₁.not_blocked h.not_blocked
  sealed := iff_of_false h₁.not_sealed h.not_sealed

theorem read (hclosed : t.Closed) {p : String} (hgoal : t'.goal p = some place) :
    t'.read p = .ok text := by
  rcases find_cases (h.closed hclosed) hgoal with ⟨n, hn, hfind⟩ | ⟨hnone, -⟩ | ⟨hnone, -⟩
  · rw [h.here, Option.some.injEq] at hn
    unfold FileTree.read
    rw [hfind, ← hn]
  · rw [h.here] at hnone
    cases hnone
  · rw [h.here] at hnone
    cases hnone

/-- Other files stay as they were, and no others are made. -/
theorem file_iff {other : List String} (hne : other ≠ place) {n : FileNode}
    (hfile : n.isDirectory = false) : t'.node? other = some n ↔ t.node? other = some n := by
  by_cases hother : other <+: place
  · refine iff_of_false ?_ ?_
    · intro hn
      obtain ⟨m, hm, hdirectory⟩ := h.directory hother hne
      rw [hn] at hm
      cases hm
      rw [hfile] at hdirectory
      cases hdirectory
    · intro hn
      have hdirectory := h.clear other hother hne n hn
      rw [hfile] at hdirectory
      cases hdirectory
  · rw [h.other other hother]

/-- Trees stay alike at places that do not lie on the way to the file, nor behind it. -/
theorem agrees_other {other : List String} (hne : place ≠ other)
    (hbehind : place <+: other → t.node? place ≠ none)
    (hbefore : other <+: place → t.node? other ≠ none) : t.Agrees t' other := by
  refine ⟨?_, ?_, ?_⟩
  · by_cases hother : other <+: place
    · obtain ⟨n, hn⟩ := Option.ne_none_iff_exists'.1 (hbefore hother)
      rw [h.above other hother (Ne.symm hne), hn]
      rfl
    · exact h.other other hother
  · constructor
    · rintro ⟨front, hfront, hdiffers, n, hn, hfile⟩
      by_cases heq : front = place
      · subst heq
        obtain ⟨m, hm⟩ := Option.ne_none_iff_exists'.1 (hbehind hfront)
        exact ⟨front, hfront, hdiffers, m, hm, h.free m hm⟩
      · exact ⟨front, hfront, hdiffers, n, (h.file_iff heq hfile).1 hn, hfile⟩
    · rintro ⟨front, hfront, hdiffers, n, hn, hfile⟩
      by_cases heq : front = place
      · exact ⟨front, hfront, hdiffers, _, heq ▸ h.here, rfl⟩
      · exact ⟨front, hfront, hdiffers, n, (h.file_iff heq hfile).2 hn, hfile⟩
  · constructor
    · rintro ⟨front, s, hfront, hlocked, hnone⟩
      have hnot : ¬front ++ [s] <+: place := fun hstem => h.ne_none hstem hnone
      refine ⟨front, s, hfront, ?_, (h.other _ hnot).symm.trans hnone⟩
      by_cases hwithin : front <+: place
      · by_cases heq : front = place
        · rw [heq, h.here] at hlocked
          cases hlocked
        · rw [h.above front hwithin heq] at hlocked
          cases hn : t.node? front with
          | none =>
            rw [hn] at hlocked
            cases hlocked
          | some n =>
            rw [hn] at hlocked
            exact hlocked
      · exact (h.other front hwithin).symm.trans hlocked
    · rintro ⟨front, s, hfront, hlocked, hnone⟩
      have hnot : ¬front ++ [s] <+: place := fun hstem =>
        h.unsealed ⟨front, s, hstem, hlocked, hnone⟩
      exact ⟨front, s, hfront, h.persists.keepsDirectories front _ hlocked rfl,
        (h.other _ hnot).trans hnone⟩

end Saved

/-! ## Changes that make nothing -/

/-- Trees with files and directories at the same places. -/
def SameKinds (t t' : FileTree) : Prop :=
  ∀ place, (t'.node? place).map FileNode.isDirectory = (t.node? place).map FileNode.isDirectory

theorem SameKinds.refl (t : FileTree) : t.SameKinds t := fun _ => rfl

theorem SameKinds.trans {t'' : FileTree} (h : t.SameKinds t') (h' : t'.SameKinds t'') :
    t.SameKinds t'' :=
  fun place => (h' place).trans (h place)

theorem SameKinds.cases (h : t.SameKinds t') (place : List String) :
    (t'.node? place = none ∧ t.node? place = none) ∨ ∃ m n, t'.node? place = some m ∧
      t.node? place = some n ∧ m.isDirectory = n.isDirectory := by
  have hkind := h place
  cases hs : t'.node? place with
  | none =>
    rw [hs, Option.map_none, eq_comm, Option.map_eq_none_iff] at hkind
    exact .inl ⟨rfl, hkind⟩
  | some m =>
    rw [hs, Option.map_some, eq_comm, Option.map_eq_some_iff] at hkind
    obtain ⟨n, hn, hdirectory⟩ := hkind
    exact .inr ⟨m, n, rfl, hn, hdirectory.symm⟩

theorem SameKinds.step (h : t.SameKinds t') : t'.step = t.step := by
  funext here c
  unfold FileTree.step
  rcases h.cases here with ⟨hs, ht⟩ | ⟨m, n, hs, ht, hdirectory⟩
  · rw [hs, ht]
  · simp only [hs, ht, hdirectory]

theorem SameKinds.isFile (h : t.SameKinds t') (p : String) : t'.isFile p = t.isFile p := by
  unfold FileTree.isFile find place
  rw [h.step]
  cases (Path.components p).foldlM t.step [] with
  | error e => rfl
  | ok here =>
    rcases h.cases here with ⟨hs, ht⟩ | ⟨m, n, hs, ht, hdirectory⟩
    · simp [Except.bind, hs, ht]
    · simp [Except.bind, hs, ht, Except.toOption, FileNode.isFile, hdirectory]

/-- Saving a file that is there makes nothing. -/
theorem Saved.sameKinds {place : List String} {text : String} (h : t.Saved place text t')
    (hclosed : t.Closed) (hthere : t.node? place ≠ none) : t.SameKinds t' := by
  obtain ⟨n, hn⟩ := Option.ne_none_iff_exists'.1 hthere
  intro other
  by_cases hother : other <+: place
  · by_cases heq : other = place
    · rw [heq, h.here, hn, Option.map_some, Option.map_some, h.free n hn]
      rfl
    · obtain ⟨m, hm, -⟩ := (hclosed place n hn).directory hother heq
      rw [h.above other hother heq, hm]
      rfl
  · rw [h.other other hother]

end FileTree

end TranslationAudit
