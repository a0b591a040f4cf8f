import TranslationAudit.FileTree
import TranslationAudit.Proofs.Collection.SortedMap

/-! # Files that were written

* `KeepsDirectories`: a change of a tree after which paths lead where they led before.
* `makeDirectories_extends`: making directories leaves everything in its place.
* `read_save`, `read_save_other`: what is read from a file and from others after it was written.
-/

namespace TranslationAudit

/-- Paths that go through no directory to leave it again. -/
def Path.Direct (p : String) : Prop := Path.Component.parent ∉ Path.components p

namespace FileTree

variable {t t' : FileTree}

/-- The directories of a tree are directories of another. -/
def KeepsDirectories (t t' : FileTree) : Prop :=
  ∀ place n, t.node? place = some n → n.isDirectory = true → t'.node? place = some n

/-- Everything in a tree is in another. -/
def Extends (t t' : FileTree) : Prop := ∀ place n, t.node? place = some n → t'.node? place = some n

theorem Extends.refl (t : FileTree) : t.Extends t := fun _ _ h => h

theorem Extends.trans {t t' t'' : FileTree} (h : t.Extends t') (h' : t'.Extends t'') :
    t.Extends t'' := fun place n hn => h' place n (h place n hn)

theorem Extends.keepsDirectories (h : t.Extends t') : t.KeepsDirectories t' :=
  fun place n hn _ => h place n hn

/-! ## Changes at one place -/

theorem node?_put (t : FileTree) (place other : List String) (n : FileNode) :
    (t.put place n).node? other =
      if other.isEmpty then some .directory
      else if other = place then some n else t.nodes.get? other := by
  rw [put, node?, SortedMap.get?_insert]

theorem node?_put_of_ne {place other : List String} (h : other ≠ place) (n : FileNode) :
    (t.put place n).node? other = t.node? other := by
  rw [node?_put, if_neg h, node?]

theorem node?_put_self {place : List String} (h : place.isEmpty = false) (n : FileNode) :
    (t.put place n).node? place = some n := by
  rw [node?_put, h]
  simp

theorem extends_put {place : List String} (h : t.node? place = none) (n : FileNode) :
    t.Extends (t.put place n) := by
  intro other m hm
  have hne : other ≠ place := by
    rintro rfl
    rw [h] at hm
    cases hm
  rw [node?_put_of_ne hne, hm]

theorem keepsDirectories_put {place : List String} {m : FileNode} (h : t.node? place = some m)
    (hfile : m.isDirectory = false) (n : FileNode) : t.KeepsDirectories (t.put place n) := by
  intro other k hk hdirectory
  have hne : other ≠ place := by
    rintro rfl
    rw [h] at hk
    cases hk
    rw [hfile] at hdirectory
    cases hdirectory
  rw [node?_put_of_ne hne, hk]

/-! ## Paths -/

theorem step_eq_ok {here next : List String} {c : Path.Component}
    (h : t.step here c = .ok next) : ∃ n, t.node? here = some n ∧ n.isDirectory = true := by
  unfold step at h
  split at h
  · cases h
  · next n hn =>
    split at h
    · next hdirectory => exact ⟨n, hn, hdirectory⟩
    · cases h

namespace KeepsDirectories

variable (hkeeps : t.KeepsDirectories t')
include hkeeps

theorem step {here next : List String} {c : Path.Component} (h : t.step here c = .ok next) :
    t'.step here c = .ok next := by
  obtain ⟨n, hn, hdirectory⟩ := step_eq_ok h
  have hn' := hkeeps here n hn hdirectory
  unfold FileTree.step at h ⊢
  rw [hn] at h
  rw [hn']
  exact h

theorem steps {cs : List Path.Component} {here there : List String}
    (h : cs.foldlM t.step here = .ok there) : cs.foldlM t'.step here = .ok there := by
  induction cs generalizing here with
  | nil => exact h
  | cons c cs ih =>
    rw [List.foldlM_cons] at h ⊢
    cases hc : t.step here c with
    | error e =>
      rw [hc] at h
      cases h
    | ok next =>
      rw [hc] at h
      rw [hkeeps.step hc]
      exact ih h

theorem place {p : String} {place : List String} (h : t.place p = .ok place) :
    t'.place p = .ok place := hkeeps.steps h

end KeepsDirectories

theorem read_eq_ok {p s : String} :
    t.read p = .ok s ↔ ∃ place, t.place p = .ok place ∧ t.node? place = some (.text s) := by
  rw [read, find]
  cases hplace : t.place p with
  | error e => simp [Except.bind]
  | ok place =>
    simp only [Except.bind, Except.ok.injEq, exists_eq_left']
    cases t.node? place with
    | none => simp
    | some n => cases n <;> simp

/-! ## Writing -/

theorem makeStep_extends {here next : List String} {c : Path.Component}
    (h : makeStep (t, here) c = .ok (t', next)) : t.Extends t' := by
  rw [makeStep] at h
  cases hstep : t.step here c with
  | error e =>
    rw [hstep] at h
    cases h
  | ok there =>
    rw [hstep] at h
    simp only [Except.bind] at h
    split at h
    · cases h
      exact .refl t
    · next hnone =>
      split at h
      · cases h
      · cases h
        exact extends_put (by simpa using hnone) .directory

theorem makeDirectories_extends {p : String} (h : t.makeDirectories p = .ok t') :
    t.Extends t' := by
  have hsteps (cs : List Path.Component) (state state' : FileTree × List String)
      (hfold : cs.foldlM makeStep state = .ok state') : state.1.Extends state'.1 := by
    induction cs generalizing state with
    | nil =>
      cases hfold
      exact .refl _
    | cons c cs ih =>
      rw [List.foldlM_cons] at hfold
      cases hc : makeStep state c with
      | error e =>
        rw [hc] at hfold
        cases hfold
      | ok next =>
        rw [hc] at hfold
        exact (makeStep_extends hc).trans (ih next hfold)
  rw [makeDirectories] at h
  cases hfold : (Path.components p).foldlM makeStep (t, []) with
  | error e =>
    rw [hfold] at h
    cases h
  | ok state =>
    rw [hfold] at h
    simp only [Except.bind] at h
    split at h
    · cases h
      exact hsteps _ _ _ hfold
    · cases h

/-- What is written is a file behind the place that the steps before the name lead to. No directory
was there. -/
theorem write_eq_ok {p s : String} (h : t.write p s = .ok t') :
    ∃ front name parent, Path.components p = front ++ [.name name] ∧
      front.foldlM t.step [] = .ok parent ∧ t' = t.put (parent ++ [name]) (.text s) ∧
      ∀ n, t.node? (parent ++ [name]) = some n → n.isDirectory = false := by
  unfold write at h
  extract_lets steps at h
  split at h
  · next name hlast =>
    obtain ⟨front, hfront⟩ : ∃ front, steps = front ++ [.name name] :=
      List.getLast?_eq_some_iff.1 hlast
    rw [hfront, List.dropLast_concat] at h
    cases hparent : front.foldlM t.step [] with
    | error e =>
      rw [hparent] at h
      cases h
    | ok parent =>
      refine ⟨front, name, parent, hfront, hparent, ?_⟩
      rw [hparent] at h
      simp only [Except.bind] at h
      cases hnode : t.node? (parent ++ [name]) with
      | none =>
        rw [hnode] at h
        refine ⟨?_, by simp⟩
        cases hn : t.node? parent with
        | none =>
          rw [hn] at h
          cases h
        | some n =>
          rw [hn] at h
          cases n <;> cases h
          rfl
      | some m =>
        rw [hnode] at h
        cases hn : t.node? parent with
        | none =>
          rw [hn] at h
          cases h
        | some n =>
          rw [hn] at h
          simp only at h
          by_cases hm : m.isDirectory = true
          · rw [if_pos hm] at h
            cases h
          · rw [if_neg hm] at h
            cases h
            refine ⟨rfl, ?_⟩
            intro k hk
            cases hk
            simpa using hm
  · cases h

theorem place_eq {p name : String} {front : List Path.Component} {parent : List String}
    (hcomponents : Path.components p = front ++ [.name name])
    (hparent : front.foldlM t.step [] = .ok parent) : t.place p = t.step parent (.name name) := by
  rw [place, hcomponents, List.foldlM_append, hparent]
  simp only [List.foldlM_cons, List.foldlM_nil, bind_pure]
  rfl

theorem step_name {here next : List String} {name : String}
    (h : t.step here (.name name) = .ok next) : next = here ++ [name] := by
  obtain ⟨n, hn, hdirectory⟩ := step_eq_ok h
  unfold step at h
  rw [hn] at h
  simp only [hdirectory, if_true, Except.ok.injEq] at h
  exact h.symm

theorem read_write {p s s' : String} (hread : t.read p = .ok s) (h : t.write p s' = .ok t') :
    t'.read p = .ok s' := by
  obtain ⟨place, hplace, hnode⟩ := read_eq_ok.1 hread
  obtain ⟨front, name, parent, hcomponents, hparent, rfl, -⟩ := write_eq_ok h
  -- the path was followed to the file before, so its parent is a directory
  have hname := (place_eq hcomponents hparent).symm.trans hplace
  obtain rfl := step_name hname
  have hkeeps := keepsDirectories_put hnode rfl (.text s')
  exact read_eq_ok.2 ⟨parent ++ [name], hkeeps.place hplace, node?_put_self (by simp) _⟩

theorem save_eq_ok {p s : String} (h : t.save p s = .ok t') :
    ∃ t₁, t.Extends t₁ ∧ t₁.write p s = .ok t' := by
  rw [save] at h
  cases hmake : t.makeDirectories ((Path.parent? p).getD "") with
  | error e =>
    rw [hmake] at h
    cases h
  | ok t₁ =>
    rw [hmake] at h
    exact ⟨t₁, makeDirectories_extends hmake, h⟩

theorem Extends.read (h : t.Extends t') {p s : String} (hread : t.read p = .ok s) :
    t'.read p = .ok s := by
  obtain ⟨place, hplace, hnode⟩ := read_eq_ok.1 hread
  exact read_eq_ok.2 ⟨place, h.keepsDirectories.place hplace, h place _ hnode⟩

/-- What was saved over a file is read from it. -/
theorem read_save {p s s' : String} (hread : t.read p = .ok s) (h : t.save p s' = .ok t') :
    t'.read p = .ok s' := by
  obtain ⟨t₁, hextends, hwrite⟩ := save_eq_ok h
  exact read_write (hextends.read hread) hwrite

/-! ## Other files -/

/-- The directories that lead to a place. -/
def LedTo (t : FileTree) (place : List String) : Prop :=
  ∀ front name rest, place = front ++ name :: rest →
    ∃ n, t.node? front = some n ∧ n.isDirectory = true

theorem LedTo.step {here next : List String} {c : Path.Component} (hled : t.LedTo here)
    (h : t.step here c = .ok next) : t.LedTo next := by
  obtain ⟨n, hn, hdirectory⟩ := step_eq_ok h
  intro front name rest hnext
  cases c with
  | root =>
    unfold FileTree.step at h
    rw [hn] at h
    simp only [hdirectory, if_true, Except.ok.injEq] at h
    rw [← h] at hnext
    simp at hnext
  | current =>
    unfold FileTree.step at h
    rw [hn] at h
    simp only [hdirectory, if_true, Except.ok.injEq] at h
    exact hled front name rest (h.trans hnext)
  | parent =>
    unfold FileTree.step at h
    rw [hn] at h
    simp only [hdirectory, if_true, Except.ok.injEq] at h
    -- what leads to the place above leads to the place itself
    have hne : here ≠ [] := by
      rintro rfl
      rw [← h] at hnext
      simp at hnext
    have hhere : here = front ++ name :: (rest ++ [here.getLast hne]) := by
      have hconcat := List.dropLast_concat_getLast hne
      rw [h, hnext] at hconcat
      simpa using hconcat.symm
    exact hled front name _ hhere
  | name s =>
    have hs := (step_name h).symm.trans hnext
    rcases List.eq_nil_or_concat rest with rfl | ⟨rest', last, rfl⟩
    · obtain ⟨rfl, -⟩ := List.append_inj' hs rfl
      exact ⟨n, hn, hdirectory⟩
    · have hhere : here = front ++ name :: rest' := by
        have hsplit : here ++ [s] = (front ++ name :: rest') ++ [last] := by simpa using hs
        exact (List.append_inj' hsplit rfl).1
      exact hled front name rest' hhere

theorem ledTo_place {p : String} {place : List String} (h : t.place p = .ok place) :
    t.LedTo place := by
  have hsteps (cs : List Path.Component) (here : List String) (hled : t.LedTo here)
      (hfold : cs.foldlM t.step here = .ok place) : t.LedTo place := by
    induction cs generalizing here with
    | nil =>
      cases hfold
      exact hled
    | cons c cs ih =>
      rw [List.foldlM_cons] at hfold
      cases hc : t.step here c with
      | error e =>
        rw [hc] at hfold
        cases hfold
      | ok next =>
        rw [hc] at hfold
        exact ih next (hled.step hc) hfold
  refine hsteps _ [] ?_ h
  intro front name rest hnil
  simp at hnil

/-- Steps by names lead where they led before other files were made, if a file was there. -/
theorem foldlM_step_of_extends (h : t.Extends t') {place : List String} (hled : t.LedTo place)
    {n : FileNode} (hnode : t.node? place = some n) (hfile : n.isDirectory = false)
    {cs : List Path.Component} (hnames : ∀ c ∈ cs, c = .current ∨ ∃ s, c = .name s)
    {here : List String} (hfold : cs.foldlM t'.step here = .ok place) :
    here <+: place ∧ cs.foldlM t.step here = .ok place := by
  induction cs generalizing here with
  | nil =>
    cases hfold
    exact ⟨List.prefix_rfl, rfl⟩
  | cons c cs ih =>
    rw [List.foldlM_cons] at hfold ⊢
    cases hc : t'.step here c with
    | error e =>
      rw [hc] at hfold
      cases hfold
    | ok next =>
      rw [hc] at hfold
      obtain ⟨hnext, hrest⟩ := ih (fun c hc => hnames c (List.mem_cons_of_mem _ hc)) hfold
      obtain ⟨m, hm, hdirectory⟩ := step_eq_ok hc
      have hhere : here <+: next := by
        rcases hnames c List.mem_cons_self with rfl | ⟨s, rfl⟩
        · unfold step at hc
          rw [hm] at hc
          simp only [hdirectory, if_true, Except.ok.injEq] at hc
          exact hc ▸ List.prefix_rfl
        · rw [step_name hc]
          exact List.prefix_append here [s]
      have hwhole := hhere.trans hnext
      -- a directory is no file, so the place lies below
      have hne : here ≠ place := by
        rintro rfl
        rw [h here n hnode] at hm
        cases hm
        rw [hfile] at hdirectory
        cases hdirectory
      obtain ⟨rest, hplace⟩ := hwhole
      obtain ⟨name, rest, rfl⟩ : ∃ name rest', rest = name :: rest' := by
        cases rest with
        | nil => exact absurd (by simpa using hplace) hne
        | cons name rest => exact ⟨name, rest, rfl⟩
      obtain ⟨k, hk, hdirectory'⟩ := hled here name rest hplace.symm
      have hstep : t.step here c = .ok next := by
        have hk' := h here k hk
        unfold step at hc ⊢
        rw [hk'] at hc
        rw [hk]
        exact hc
      refine ⟨⟨_, hplace⟩, ?_⟩
      rw [hstep]
      exact hrest

theorem components_of_direct {p : String} (h : Path.Direct p) :
    ∃ cs, (Path.components p = .root :: cs ∨ Path.components p = cs) ∧
      ∀ c ∈ cs, c = .current ∨ ∃ s, c = Path.Component.name s := by
  have hnames : ∀ c ∈ ((Text.split (· = '/') p.toList).filter
      fun s => s ≠ [] && s ≠ ['.']).map Path.component, c = .current ∨
        ∃ s, c = Path.Component.name s := by
    intro c hc
    have hne : c ≠ .parent := by
      rintro rfl
      exact h (List.mem_append_right _ hc)
    obtain ⟨piece, -, rfl⟩ := List.mem_map.1 hc
    unfold Path.component at hne ⊢
    by_cases hpiece : piece = ['.', '.']
    · rw [if_pos hpiece] at hne
      exact absurd rfl hne
    · rw [if_neg hpiece]
      exact .inr ⟨_, rfl⟩
  unfold Path.components
  simp only
  by_cases habsolute : Path.isAbsolute p = true
  · rw [if_pos habsolute]
    exact ⟨_, .inl rfl, hnames⟩
  · rw [if_neg habsolute]
    refine ⟨_, .inr rfl, ?_⟩
    intro c hc
    rcases List.mem_append.1 hc with hc | hc
    · split at hc
      · exact .inl (List.mem_singleton.1 hc)
      · cases hc
    · exact hnames c hc

/-- A direct path leads where it led before other files were made, if a file was there. -/
theorem place_of_extends (h : t.Extends t') {p q : String} (hq : Path.Direct q)
    {place : List String} (hplace : t.place p = .ok place) {n : FileNode}
    (hnode : t.node? place = some n) (hfile : n.isDirectory = false)
    (hq' : t'.place q = .ok place) : t.place q = .ok place := by
  have hled := ledTo_place hplace
  obtain ⟨cs, hcomponents, hnames⟩ := components_of_direct hq
  unfold FileTree.place at hq' ⊢
  rcases hcomponents with hcomponents | hcomponents
  · rw [hcomponents, List.foldlM_cons] at hq' ⊢
    exact (foldlM_step_of_extends h hled hnode hfile hnames hq').2
  · rw [hcomponents] at hq' ⊢
    exact (foldlM_step_of_extends h hled hnode hfile hnames hq').2

/-- Where a path leads after a file was saved, and what is read there: what was saved, if this is
the place of the file, and what was there before otherwise. -/
theorem read_save_other {p q s s' : String} (hread : t.read p = .ok s)
    (hq : (∃ old, t.read q = .ok old) ∨ Path.Direct q) (h : t.save q s' = .ok t') :
    t'.place p = t.place p ∧
      (t'.read p = .ok s ∨ (t.place q = t.place p ∧ t'.read p = .ok s')) := by
  obtain ⟨place, hplace, hnode⟩ := read_eq_ok.1 hread
  obtain ⟨t₁, hextends, hwrite⟩ := save_eq_ok h
  obtain ⟨front, name, parent, hcomponents, hparent, rfl, hfree⟩ := write_eq_ok hwrite
  have hplace₁ : t₁.place p = .ok place := hextends.keepsDirectories.place hplace
  have hnode₁ : t₁.node? place = some (.text s) := hextends place _ hnode
  have hkeeps : t₁.KeepsDirectories (t₁.put (parent ++ [name]) (.text s')) := by
    cases hold : t₁.node? (parent ++ [name]) with
    | none => exact (extends_put hold _).keepsDirectories
    | some n => exact keepsDirectories_put hold (hfree n hold) _
  have hplace' := hkeeps.place hplace₁
  refine ⟨hplace'.trans hplace.symm, ?_⟩
  by_cases hsame : place = parent ++ [name]
  · refine .inr ⟨?_, read_eq_ok.2 ⟨place, hplace', ?_⟩⟩
    · -- the place lies in a directory, so the path leads to it
      have hq₁ : t₁.place q = .ok place := by
        obtain ⟨n, hn, hdirectory⟩ := ledTo_place hplace₁ parent name [] hsame
        rw [place_eq hcomponents hparent]
        unfold step
        rw [hn, hsame]
        simp [hdirectory]
      rw [hplace]
      rcases hq with ⟨old, hold⟩ | hdirect
      · obtain ⟨other, hother, -⟩ := read_eq_ok.1 hold
        have hother₁ := hextends.keepsDirectories.place hother
        rw [hq₁] at hother₁
        cases hother₁
        exact hother
      · exact place_of_extends hextends hdirect hplace hnode rfl hq₁
    · rw [hsame]
      exact node?_put_self (by simp) _
  · refine .inl (read_eq_ok.2 ⟨place, hplace', ?_⟩)
    rw [node?_put_of_ne hsame]
    exact hnode₁

theorem read_of_place {p q : String} (h : t.place q = t.place p) : t.read q = t.read p := by
  rw [read, read, find, find, h]

end FileTree

end TranslationAudit
