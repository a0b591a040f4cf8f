import TranslationAudit.Path
import TranslationAudit.Proofs.Text.Cut

/-! # Paths that were put together

* `Path.le_trans`, `Path.le_total`, `Path.components_eq_of_le`: paths are ordered by their
  components.
* `Path.components_append`, `Path.components_join`: the components of a path that goes on from
  another are those of both.
* `Path.isBelow`: whether a path goes on from a directory; `Path.isBelow_join` tells it by names.
-/

namespace TranslationAudit.Path

/-! ## The order -/

namespace Component

instance : Std.TransOrd Component :=
  inferInstanceAs (Std.TransCmp (compareLex (compareOn rank) (compareOn text)))

theorem eq_of_compare {a b : Component} (h : compare a b = .eq) : a = b := by
  change (compare a.rank b.rank).then (compare a.text b.text) = .eq at h
  simp only [Ordering.then_eq_eq, Std.LawfulEqOrd.compare_eq_iff_eq] at h
  obtain ⟨hrank, htext⟩ := h
  cases a <;> cases b <;> simp_all [rank, text]

instance : Std.LawfulEqOrd Component := ⟨eq_of_compare⟩

end Component

theorem compareLists_eq (as bs : List Component) : compareLists as bs = compare as bs := by
  induction as generalizing bs with
  | nil => cases bs <;> rfl
  | cons a as ih =>
    cases bs with
    | nil => rfl
    | cons b bs =>
      rw [compareLists, ih, List.compare_eq_compareLex, List.compareLex_cons_cons]

theorem comparePaths_eq (p q : String) :
    comparePaths p q = compare (components p) (components q) := compareLists_eq _ _

/-- Whether a path comes no later than another. -/
def le (p q : String) : Bool := comparePaths p q != .gt

theorem le_eq (p q : String) : le p q = (compare (components p) (components q)).isLE := by
  rw [le, comparePaths_eq]
  cases compare (components p) (components q) <;> rfl

theorem le_trans (p q r : String) (hpq : le p q = true) (hqr : le q r = true) :
    le p r = true := by
  rw [le_eq] at hpq hqr ⊢
  exact Std.TransCmp.isLE_trans hpq hqr

theorem le_total (p q : String) : (le p q || le q p) = true := by
  rw [le_eq, le_eq, Std.OrientedOrd.eq_swap (a := components q)]
  cases compare (components p) (components q) <;> rfl

theorem components_eq_of_le {p q : String} (hpq : le p q = true) (hqp : le q p = true) :
    components p = components q := by
  rw [le_eq] at hpq hqp
  exact Std.LawfulEqOrd.eq_of_compare (Std.OrientedCmp.isLE_antisymm hpq hqp)

/-! ## Components -/

/-- A text that names one step. -/
structure IsName (s : String) : Prop where
  nonempty : s ≠ ""
  slash : '/' ∉ s.toList
  current : s ≠ "."
  parent : s ≠ ".."

instance (s : String) : Decidable (IsName s) :=
  decidable_of_iff (s ≠ "" ∧ '/' ∉ s.toList ∧ s ≠ "." ∧ s ≠ "..")
    ⟨fun ⟨hempty, hslash, hcurrent, hparent⟩ => ⟨hempty, hslash, hcurrent, hparent⟩,
      fun h => ⟨h.nonempty, h.slash, h.current, h.parent⟩⟩

/-- Paths that end with a character of a name. -/
def IsOpen (p : String) : Prop := ∃ c, p.toList.getLast? = some c ∧ c ≠ '/'

/-- The steps between the slashes of a path. -/
def steps (p : String) : List Component :=
  ((Text.split (· = '/') p.toList).filter fun s => s ≠ [] && s ≠ ['.']).map component

theorem components_append {p : String} (hp : p ≠ "") (q : String) :
    components (p ++ "/" ++ q) = components p ++ steps q := by
  have hlist : (p ++ "/" ++ q).toList = p.toList ++ '/' :: q.toList := by simp
  have hne : p.toList ≠ [] := fun h => hp (by simpa using congrArg String.ofList h)
  obtain ⟨c, rest, hc⟩ := List.exists_cons_of_ne_nil hne
  have hsplit : Text.split (· = '/') (p ++ "/" ++ q).toList =
      Text.split (· = '/') p.toList ++ Text.split (· = '/') q.toList := by
    rw [hlist]
    exact Text.split_append_cons (by simp) _ _
  have habsolute : isAbsolute (p ++ "/" ++ q) = isAbsolute p := by
    rw [isAbsolute, isAbsolute, hlist, hc]
    rfl
  have hhead : (Text.split (· = '/') p.toList ++ Text.split (· = '/') q.toList).head? =
      (Text.split (· = '/') p.toList).head? := by
    have hsome := List.isSome_head?.2 (Text.split_ne_nil (· = '/') p.toList)
    rw [List.head?_append, Option.or_of_isSome hsome]
  unfold components steps
  simp only [hsplit, habsolute, hhead]
  rw [List.filter_append, List.map_append, List.append_assoc]

theorem split_names {names : List String} (h : ∀ s ∈ names, IsName s) (hne : names ≠ []) :
    Text.split (· = '/') ("/".intercalate names).toList = names.map String.toList := by
  have hslash : "/".toList = ['/'] := rfl
  rw [String.toList_intercalate, hslash]
  refine Text.split_intercalate (by simp) (by simpa using hne) ?_
  intro piece hpiece d hd
  obtain ⟨s, hs, rfl⟩ := List.mem_map.1 hpiece
  have hslash : d ≠ '/' := fun heq => (h s hs).slash (heq ▸ hd)
  simpa using hslash

theorem steps_names {names : List String} (h : ∀ s ∈ names, IsName s) (hne : names ≠ []) :
    steps ("/".intercalate names) = names.map .name := by
  have hkeep : ∀ piece ∈ names.map String.toList, (piece ≠ [] && piece ≠ ['.']) = true := by
    intro piece hpiece
    obtain ⟨s, hs, rfl⟩ := List.mem_map.1 hpiece
    have hempty : s.toList ≠ [] := fun heq => (h s hs).nonempty (String.toList_inj.1 heq)
    have hcurrent : s.toList ≠ ['.'] := fun heq => (h s hs).current (String.toList_inj.1 heq)
    simp [hempty, hcurrent]
  rw [steps, split_names h hne, List.filter_eq_self.2 hkeep, List.map_map]
  apply List.map_congr_left
  intro s hs
  have hparent : s.toList ≠ ['.', '.'] := fun heq => (h s hs).parent (String.toList_inj.1 heq)
  simp [component, hparent]

/-! ## Going on from a path -/

theorem isAbsolute_names {names : List String} (h : ∀ s ∈ names, IsName s) :
    isAbsolute ("/".intercalate names) = false := by
  cases names with
  | nil => rfl
  | cons s names =>
    have hs := h s List.mem_cons_self
    have hempty : s.toList ≠ [] := fun heq => hs.nonempty (String.toList_inj.1 heq)
    obtain ⟨c, rest, hc⟩ := List.exists_cons_of_ne_nil hempty
    have hslash : c ≠ '/' := by
      rintro rfl
      exact hs.slash (hc ▸ List.mem_cons_self)
    rw [isAbsolute, String.toList_intercalate, List.map_cons, hc]
    cases names <;> simp [hslash]

theorem IsName.isAbsolute {s : String} (h : IsName s) : isAbsolute s = false := by
  have hnames : ∀ r ∈ [s], IsName r := by simpa using h
  simpa using isAbsolute_names hnames

theorem IsOpen.ne_empty {p : String} (h : IsOpen p) : p ≠ "" := by
  rintro rfl
  obtain ⟨c, hc, -⟩ := h
  simp at hc

theorem IsOpen.join {p : String} (h : IsOpen p) {q : String} (hq : Path.isAbsolute q = false) :
    join p q = p ++ "/" ++ q := by
  obtain ⟨c, hc, hslash⟩ := id h
  have hlast : ¬p.toList.getLast? = some '/' := by
    rw [hc, Option.some.injEq]
    exact hslash
  rw [Path.join, hq, if_neg (by simpa using h.ne_empty), if_neg hlast]

theorem IsOpen.isOpen_join {p : String} (h : IsOpen p) (base : String) :
    IsOpen (Path.join base p) := by
  obtain ⟨c, hc, hslash⟩ := h
  have hend (front : String) : IsOpen (front ++ p) := by
    refine ⟨c, ?_, hslash⟩
    rw [String.toList_append, List.getLast?_append, hc]
    rfl
  rw [Path.join]
  split
  · exact ⟨c, hc, hslash⟩
  · split
    · exact hend base
    · exact hend (base ++ "/")

theorem IsName.isOpen {s : String} (h : IsName s) : IsOpen s := by
  have hempty : s.toList ≠ [] := fun heq => h.nonempty (String.toList_inj.1 heq)
  exact ⟨s.toList.getLast hempty, List.getLast?_eq_some_getLast hempty,
    fun heq => h.slash (heq ▸ List.getLast_mem hempty)⟩

theorem IsName.isOpen_join {s : String} (h : IsName s) (base : String) : IsOpen (join base s) :=
  h.isOpen.isOpen_join base

instance (p : String) : Decidable (IsOpen p) :=
  decidable_of_iff (p.toList.getLast?.any (· ≠ '/') = true) (by simp [IsOpen, Option.any_eq_true])

theorem components_join {p : String} (hp : IsOpen p) {names : List String}
    (h : ∀ s ∈ names, IsName s) (hne : names ≠ []) :
    components (join p ("/".intercalate names)) = components p ++ names.map .name := by
  rw [hp.join (isAbsolute_names h), components_append hp.ne_empty, steps_names h hne]

/-! ## Paths below a directory -/

/-- Whether a path goes on from a directory. -/
def isBelow (directory p : String) : Bool :=
  (Text.after? (directory ++ "/").toList p.toList).isSome

theorem isBelow_iff {directory p : String} :
    isBelow directory p = true ↔ ∃ rest, p = directory ++ "/" ++ rest := by
  rw [isBelow, Option.isSome_iff_exists]
  constructor
  · rintro ⟨rest, hrest⟩
    refine ⟨String.ofList rest, String.toList_inj.1 ?_⟩
    rw [Text.eq_append_of_after? hrest]
    simp
  · rintro ⟨rest, rfl⟩
    refine ⟨rest.toList, ?_⟩
    rw [String.toList_append (s := directory ++ "/"), Text.after?_append]

theorem intercalate_cons {s : String} {names : List String} (hne : names ≠ []) :
    "/".intercalate (s :: names) = s ++ "/" ++ "/".intercalate names := by
  obtain ⟨t, rest, rfl⟩ := List.exists_cons_of_ne_nil hne
  apply String.toList_inj.1
  have hslash : "/".toList = ['/'] := rfl
  simp only [String.toList_append, String.toList_intercalate, List.map_cons, hslash,
    List.intercalate_cons_cons]

/-- What lies below a directory in another one are the paths on which its name comes first. -/
theorem isBelow_join {p s : String} (hp : IsOpen p) (hs : IsName s) {names : List String}
    (h : ∀ t ∈ names, IsName t) :
    isBelow (join p s) (join p ("/".intercalate names)) = true ↔
      ∃ rest, rest ≠ [] ∧ names = s :: rest := by
  rw [hp.join hs.isAbsolute, hp.join (isAbsolute_names h), isBelow_iff]
  constructor
  · rintro ⟨rest, heq⟩
    have hrest : "/".intercalate names = s ++ "/" ++ rest := by
      have hlist := congrArg String.toList heq
      simp only [String.toList_append, List.append_assoc, List.append_cancel_left_eq] at hlist
      apply String.toList_inj.1
      simpa only [String.toList_append, List.append_assoc] using hlist
    have hlist : ("/".intercalate names).toList = s.toList ++ '/' :: rest.toList := by
      rw [hrest]
      simp
    have hne : names ≠ [] := by
      rintro rfl
      simp at hlist
    have hfree : ∀ c ∈ s.toList, decide (c = '/') = false := by
      intro c hc
      have hslash : c ≠ '/' := fun heq => hs.slash (heq ▸ hc)
      simpa using hslash
    have hpieces : names.map String.toList =
        s.toList :: Text.split (· = '/') rest.toList := by
      have hnil : Text.split (· = '/') [] = [[]] := rfl
      have hsplit := Text.split_append hfree hnil
      rw [List.append_nil] at hsplit
      rw [← split_names h hne, hlist, Text.split_append_cons (by simp), hsplit]
      rfl
    obtain ⟨t, names, rfl⟩ := List.exists_cons_of_ne_nil hne
    rw [List.map_cons, List.cons.injEq] at hpieces
    obtain ⟨hname, hpieces⟩ := hpieces
    obtain rfl := String.toList_inj.1 hname
    refine ⟨names, ?_, rfl⟩
    rintro rfl
    exact Text.split_ne_nil _ _ hpieces.symm
  · rintro ⟨rest, hne, rfl⟩
    refine ⟨"/".intercalate rest, ?_⟩
    rw [intercalate_cons hne]
    simp only [String.append_assoc]

end TranslationAudit.Path
