import Mathlib.Data.List.Induction
import TranslationAudit.Proofs.FileTree

/-! # Places that paths go to

* `FileTree.Closed`: trees in which everything lies in directories.
* `FileTree.goal`: the place that a path goes to, also where nothing leads to it yet.
* `FileTree.find_cases`: what is found by a path is told by its goal.
* `FileTree.exists_goal_of_isFile`: paths to files go somewhere.
-/

namespace TranslationAudit

namespace FileTree

variable {t t' : FileTree}

/-! ## Closed trees -/

/-- Trees in which everything lies in directories. -/
def Closed (t : FileTree) : Prop := ∀ place n, t.node? place = some n → t.LedTo place

theorem LedTo.directory {place front : List String} (h : t.LedTo place) (hfront : front <+: place)
    (hne : front ≠ place) : ∃ n, t.node? front = some n ∧ n.isDirectory = true := by
  obtain ⟨rest, rfl⟩ := hfront
  cases rest with
  | nil => exact absurd (List.append_nil front).symm hne
  | cons name rest => exact h front name rest rfl

theorem ledTo_of_directories {place : List String}
    (h : ∀ front, front <+: place → front ≠ place →
      ∃ n, t.node? front = some n ∧ n.isDirectory = true) : t.LedTo place := by
  rintro front name rest rfl
  exact h front (List.prefix_append _ _) (by simp)

theorem ledTo_concat {place : List String} {s : String} :
    t.LedTo (place ++ [s]) ↔
      t.LedTo place ∧ ∃ n, t.node? place = some n ∧ n.isDirectory = true := by
  constructor
  · intro h
    refine ⟨?_, h place s [] rfl⟩
    rintro front name rest rfl
    exact h front name (rest ++ [s]) (by simp)
  · rintro ⟨h, hplace⟩
    refine ledTo_of_directories fun front hfront hne => ?_
    rcases List.prefix_concat_iff.1 hfront with rfl | hfront
    · exact absurd rfl hne
    · by_cases heq : front = place
      · exact heq ▸ hplace
      · exact h.directory hfront heq

theorem Closed.ledTo_of_step (h : t.Closed) {here next : List String} {c : Path.Component}
    (hstep : t.step here c = .ok next) : t.LedTo here ∧ t.LedTo next := by
  obtain ⟨n, hn, -⟩ := step_eq_ok hstep
  exact ⟨h here n hn, (h here n hn).step hstep⟩

theorem Closed.ne_none_of_behind (h : t.Closed) {place other : List String}
    (hstem : place <+: other) (hother : t.node? other ≠ none) : t.node? place ≠ none := by
  obtain ⟨n, hn⟩ := Option.ne_none_iff_exists'.1 hother
  by_cases heq : place = other
  · rw [heq]
    exact hother
  · obtain ⟨m, hm, -⟩ := (h other n hn).directory hstem heq
    simp [hm]

/-! ## Goals -/

/-- Takes one step of a path. A name is followed also where nothing is. -/
def reach (t : FileTree) (here : List String) : Path.Component → Option (List String)
  | .name s => some (here ++ [s])
  | c => (t.step here c).toOption

/-- The place that a path goes to. Something may lead to it or nothing. -/
def goal (t : FileTree) (p : String) : Option (List String) :=
  (Path.components p).foldlM t.reach []

theorem reach_eq_some {here next : List String} {c : Path.Component}
    (h : t.reach here c = some next) :
    (∃ s, c = .name s ∧ next = here ++ [s]) ∨
      ((∀ s, c ≠ .name s) ∧ t.step here c = .ok next) := by
  have hok {r : Except FileError (List String)} (hr : r.toOption = some next) : r = .ok next := by
    cases r with
    | error e => cases hr
    | ok place => rw [Option.some.inj hr]
  cases c with
  | name s => exact .inl ⟨s, rfl, (Option.some.inj h).symm⟩
  | root | current | parent => exact .inr ⟨by simp, hok h⟩

theorem KeepsDirectories.reach (hkeeps : t.KeepsDirectories t') {here next : List String}
    {c : Path.Component} (h : t.reach here c = some next) : t'.reach here c = some next := by
  rcases reach_eq_some h with ⟨s, rfl, rfl⟩ | ⟨hnot, hstep⟩
  · rfl
  · have hstep' := hkeeps.step hstep
    cases c with
    | name s => exact absurd rfl (hnot s)
    | root | current | parent => simp [FileTree.reach, hstep', Except.toOption]

theorem KeepsDirectories.reaches (hkeeps : t.KeepsDirectories t') {cs : List Path.Component}
    {here place : List String} (h : cs.foldlM t.reach here = some place) :
    cs.foldlM t'.reach here = some place := by
  induction cs generalizing here with
  | nil => exact h
  | cons c cs ih =>
    rw [List.foldlM_cons] at h ⊢
    obtain ⟨next, hnext, hrest⟩ := Option.bind_eq_some_iff.1 h
    rw [hkeeps.reach hnext]
    exact ih hrest

theorem KeepsDirectories.goal (hkeeps : t.KeepsDirectories t') {p : String} {place : List String}
    (h : t.goal p = some place) : t'.goal p = some place := hkeeps.reaches h

/-- A fold that takes names as a path and steps back as the tree goes to the goal. -/
theorem foldlM_of_reach {σ : Type} {f : σ → Path.Component → Except FileError σ} {start : σ}
    (hback : ∀ here c next, (∀ s, c ≠ .name s) → t.step here c = .ok next →
      ((here.map .name).foldlM f start >>= fun st => f st c) = (next.map .name).foldlM f start)
    {cs : List Path.Component} {place : List String} (h : cs.foldlM t.reach [] = some place) :
    cs.foldlM f start = (place.map .name).foldlM f start := by
  induction cs using List.reverseRecOn generalizing place with
  | nil =>
    cases h
    rfl
  | append_singleton cs c ih =>
    rw [List.foldlM_append] at h
    obtain ⟨here, hhere, hc⟩ := Option.bind_eq_some_iff.1 h
    simp only [List.foldlM_cons, List.foldlM_nil, bind_pure] at hc
    rw [List.foldlM_append, ih hhere]
    simp only [List.foldlM_cons, List.foldlM_nil, bind_pure]
    rcases reach_eq_some hc with ⟨s, rfl, rfl⟩ | ⟨hnot, hstep⟩
    · rw [List.map_append, List.foldlM_append]
      simp only [List.map_cons, List.map_nil, List.foldlM_cons, List.foldlM_nil, bind_pure]
    · exact hback here c place hnot hstep

/-! ## What is found -/

/-- Follows names from the root. -/
def along (t : FileTree) (place : List String) : Except FileError (List String) :=
  (place.map Path.Component.name).foldlM t.step []

theorem along_concat (place : List String) (s : String) :
    t.along (place ++ [s]) = (t.along place).bind fun here => t.step here (.name s) := by
  unfold along
  rw [List.map_append, List.foldlM_append]
  simp only [List.map_cons, List.map_nil, List.foldlM_cons, List.foldlM_nil, bind_pure]
  rfl

/-- A file stands before a place. -/
def Blocked (t : FileTree) (place : List String) : Prop :=
  ∃ front, front <+: place ∧ front ≠ place ∧ ∃ n, t.node? front = some n ∧ n.isDirectory = false

theorem not_blocked_of_ledTo {place : List String} (h : t.LedTo place) : ¬t.Blocked place := by
  rintro ⟨front, hfront, hne, n, hn, hfile⟩
  obtain ⟨m, hm, hdirectory⟩ := h.directory hfront hne
  rw [hn] at hm
  cases hm
  rw [hfile] at hdirectory
  cases hdirectory

theorem blocked_concat {place : List String} {s : String} :
    t.Blocked (place ++ [s]) ↔
      t.Blocked place ∨ ∃ n, t.node? place = some n ∧ n.isDirectory = false := by
  constructor
  · rintro ⟨front, hfront, hne, hfile⟩
    rcases List.prefix_concat_iff.1 hfront with rfl | hfront
    · exact absurd rfl hne
    · by_cases heq : front = place
      · exact .inr (heq ▸ hfile)
      · exact .inl ⟨front, hfront, heq, hfile⟩
  · rintro (⟨front, hfront, hne, hfile⟩ | hfile)
    · refine ⟨front, hfront.trans (List.prefix_append _ _), ?_, hfile⟩
      rintro rfl
      have hlength := hfront.length_le
      rw [List.length_append, List.length_singleton] at hlength
      omega
    · exact ⟨place, List.prefix_append _ _, by simp, hfile⟩

theorem along_of_ledTo {place : List String} (h : t.LedTo place) : t.along place = .ok place := by
  induction place using List.reverseRecOn with
  | nil => rfl
  | append_singleton place s ih =>
    obtain ⟨hled, n, hn, hdirectory⟩ := ledTo_concat.1 h
    rw [along_concat, ih hled]
    simp [Except.bind, step, hn, hdirectory]

theorem along_cases (h : t.Closed) (place : List String) :
    (t.LedTo place ∧ t.along place = .ok place) ∨
      (t.node? place = none ∧ t.Blocked place ∧ t.along place = .error .notADirectory) ∨
      (t.node? place = none ∧ ¬t.Blocked place ∧ t.along place = .error .notFound) := by
  -- nothing lies in what is no directory
  have hnone {place : List String} {s : String}
      (hnot : ¬∃ n, t.node? place = some n ∧ n.isDirectory = true) :
      t.node? (place ++ [s]) = none := by
    rw [Option.eq_none_iff_forall_ne_some]
    exact fun n hn => hnot (ledTo_concat.1 (h _ n hn)).2
  induction place using List.reverseRecOn with
  | nil => exact .inl ⟨fun front name rest hnil => by simp at hnil, rfl⟩
  | append_singleton place s ih =>
    rw [along_concat, ledTo_concat, blocked_concat]
    rcases ih with ⟨hled, halong⟩ | ⟨hplace, hblocked, halong⟩ | ⟨hplace, hblocked, halong⟩
    · rw [halong]
      cases hn : t.node? place with
      | none =>
        refine .inr (.inr ⟨hnone (by simp [hn]), ?_, by simp [Except.bind, step, hn]⟩)
        simp [not_blocked_of_ledTo hled]
      | some n =>
        cases hdirectory : n.isDirectory with
        | true => exact .inl ⟨⟨hled, n, rfl, hdirectory⟩, by simp [Except.bind, step, hn, hdirectory]⟩
        | false =>
          refine .inr (.inl ⟨hnone (by simp [hn, hdirectory]), .inr ⟨n, rfl, hdirectory⟩, ?_⟩)
          simp [Except.bind, step, hn, hdirectory]
    · rw [halong]
      exact .inr (.inl ⟨hnone (by simp [hplace]), .inl hblocked, rfl⟩)
    · rw [halong]
      refine .inr (.inr ⟨hnone (by simp [hplace]), ?_, rfl⟩)
      simp [hblocked, hplace]

theorem steps_of_goal (h : t.Closed) {cs : List Path.Component} {place : List String}
    (hgoal : cs.foldlM t.reach [] = some place) : cs.foldlM t.step [] = t.along place := by
  refine foldlM_of_reach ?_ hgoal
  intro here c next _ hstep
  obtain ⟨hhere, hnext⟩ := h.ledTo_of_step hstep
  have hfrom := along_of_ledTo hhere
  have hto := along_of_ledTo hnext
  unfold along at hfrom hto
  rw [hfrom, hto]
  exact hstep

theorem place_of_goal (h : t.Closed) {p : String} {place : List String}
    (hgoal : t.goal p = some place) : t.place p = t.along place := steps_of_goal h hgoal

/-- What is found by a path is told by the place that it goes to. -/
theorem find_cases (h : t.Closed) {p : String} {place : List String}
    (hgoal : t.goal p = some place) :
    (∃ n, t.node? place = some n ∧ t.find p = .ok n) ∨
      (t.node? place = none ∧ t.Blocked place ∧ t.find p = .error .notADirectory) ∨
      (t.node? place = none ∧ ¬t.Blocked place ∧ t.find p = .error .notFound) := by
  unfold find
  rw [place_of_goal h hgoal]
  rcases along_cases h place with ⟨hled, halong⟩ | ⟨hnone, hblocked, halong⟩ |
    ⟨hnone, hblocked, halong⟩
  · rw [halong]
    cases hn : t.node? place with
    | some n => exact .inl ⟨n, rfl, by simp [Except.bind, hn]⟩
    | none => exact .inr (.inr ⟨rfl, not_blocked_of_ledTo hled, by simp [Except.bind, hn]⟩)
  · rw [halong]
    exact .inr (.inl ⟨hnone, hblocked, rfl⟩)
  · rw [halong]
    exact .inr (.inr ⟨hnone, hblocked, rfl⟩)

theorem reach_of_step {here next : List String} {c : Path.Component}
    (h : t.step here c = .ok next) : t.reach here c = some next := by
  cases c with
  | name s =>
    obtain ⟨n, hn, hdirectory⟩ := step_eq_ok h
    simpa [step, hn, hdirectory, reach] using h
  | root | current | parent => simp [reach, h, Except.toOption]

theorem goal_of_place {p : String} {here : List String} (h : t.place p = .ok here) :
    t.goal p = some here := by
  unfold place at h
  unfold goal
  generalize Path.components p = cs, ([] : List String) = start at h ⊢
  induction cs generalizing start with
  | nil =>
    cases h
    rfl
  | cons c cs ih =>
    rw [List.foldlM_cons] at h ⊢
    cases hstep : t.step start c with
    | error e =>
      rw [hstep] at h
      cases h
    | ok next =>
      rw [hstep] at h
      rw [reach_of_step hstep]
      exact ih next h

theorem exists_goal_of_isFile {p : String} (h : t.isFile p = true) :
    ∃ here, t.goal p = some here ∧ t.node? here ≠ none := by
  unfold isFile find at h
  cases hplace : t.place p with
  | error e =>
    rw [hplace] at h
    cases h
  | ok here =>
    refine ⟨here, goal_of_place hplace, ?_⟩
    intro hnone
    simp [hplace, Except.bind, hnone, Except.toOption] at h

end FileTree

end TranslationAudit
