import TranslationAudit.Project.Discovery
import TranslationAudit.Proofs.FileTree
import TranslationAudit.Proofs.Path

/-! # Searching less

* `FileTree.Proper`: trees in which places have names and lie in directories.
* `FileTree.walk_join`: the files below a directory in another are the files below that other one
  whose paths go on from the directory.
* `Project.scanFiles_below`: so is what a search finds, in the same order.
-/

namespace TranslationAudit

namespace FileTree

/-- Trees as a file system has them: places have names and lie in directories. -/
structure Proper (t : FileTree) : Prop where
  ascending : t.nodes.Ascending
  names : ∀ place n, (place, n) ∈ t.nodes.entries → ∀ s ∈ place, Path.IsName s
  led : ∀ place n, (place, n) ∈ t.nodes.entries → t.LedTo place

theorem ledTo_iff {t : FileTree} {place : List String} :
    t.LedTo place ↔
      ∀ i < place.length, (t.node? (place.take i)).any FileNode.isDirectory = true := by
  simp only [LedTo, Option.any_eq_true]
  constructor
  · intro h i hi
    exact h (place.take i) place[i] (place.drop (i + 1)) (by simp)
  · rintro h front name rest rfl
    have hfront := h front.length (by simp)
    rwa [List.take_left] at hfront

theorem proper_iff {t : FileTree} :
    t.Proper ↔ t.nodes.entries.Pairwise (fun a b => compare a.1 b.1 = .lt) ∧
      ∀ e ∈ t.nodes.entries, (∀ s ∈ e.1, Path.IsName s) ∧
        ∀ i < e.1.length, (t.node? (e.1.take i)).any FileNode.isDirectory = true := by
  constructor
  · intro h
    exact ⟨h.ascending, fun e he => ⟨h.names e.1 e.2 he, ledTo_iff.1 (h.led e.1 e.2 he)⟩⟩
  · rintro ⟨hascending, h⟩
    exact ⟨hascending, fun place n hmem => (h (place, n) hmem).1,
      fun place n hmem => ledTo_iff.2 (h (place, n) hmem).2⟩

instance (t : FileTree) : Decidable t.Proper := decidable_of_iff _ proper_iff.symm

theorem below?_eq_some {start place names : List String} :
    below? start place = some names ↔ place = start ++ names := by
  induction start generalizing place with
  | nil => simp [below?, eq_comm]
  | cons s start ih =>
    cases place with
    | nil => simp [below?]
    | cons r place =>
      rw [below?]
      by_cases hs : s = r
      · simp [hs, ih]
      · simp [hs, Ne.symm hs]

/-- The path to a place below the one that a path leads to. -/
def spelled (root : String) (names : List String) : String :=
  if names.isEmpty then root else Path.join root ("/".intercalate names)

theorem components_spelled {root : String} (hroot : Path.IsOpen root) {names : List String}
    (h : ∀ s ∈ names, Path.IsName s) :
    Path.components (spelled root names) = Path.components root ++ names.map .name := by
  unfold spelled
  split
  · next hempty => simp [List.isEmpty_iff.1 hempty]
  · next hempty => exact Path.components_join hroot h fun hnil => hempty (by simp [hnil])

variable {t : FileTree} {root : String}

theorem walk_eq {start : List String} (h : t.place root = .ok start) :
    t.walk root = t.nodes.entries.filterMap fun e =>
      if e.2.isFile then (below? start e.1).map (spelled root) else none := by
  unfold walk
  rw [h]
  rfl

/-- No two files that are found have the same components. -/
theorem pairwise_walk (h : t.Proper) (hroot : Path.IsOpen root) :
    (t.walk root).Pairwise fun p q => Path.components p ≠ Path.components q := by
  cases hplace : t.place root with
  | error e =>
    unfold walk
    rw [hplace]
    exact List.Pairwise.nil
  | ok start =>
    rw [walk_eq hplace]
    refine List.Pairwise.filterMap _ ?_ (List.Pairwise.and_mem.1 h.ascending)
    rintro ⟨place, n⟩ ⟨other, m⟩ ⟨hmem, hmem', hlt⟩ p hp q hq heq
    simp only [Option.ite_none_right_eq_some, Option.map_eq_some_iff, below?_eq_some] at hp hq
    obtain ⟨-, names, rfl, rfl⟩ := hp
    obtain ⟨-, others, rfl, rfl⟩ := hq
    have hnames : ∀ s ∈ names, Path.IsName s := fun s hs =>
      h.names _ n hmem s (List.mem_append_right start hs)
    have hothers : ∀ s ∈ others, Path.IsName s := fun s hs =>
      h.names _ m hmem' s (List.mem_append_right start hs)
    rw [components_spelled hroot hnames, components_spelled hroot hothers,
      List.append_cancel_left_eq] at heq
    have hsame : names = others := List.map_injective_iff.2 (fun _ _ => Path.Component.name.inj) heq
    exact SortedMap.ne_of_lt hlt (by rw [hsame])

theorem place_join (hroot : Path.IsOpen root) {s : String} (hs : Path.IsName s) :
    t.place (Path.join root s) = (t.place root).bind fun here => t.step here (.name s) := by
  have hcomponents : Path.components (Path.join root s) = Path.components root ++ [.name s] := by
    have hnames : ∀ r ∈ [s], Path.IsName r := by simpa using hs
    simpa using Path.components_join hroot hnames (List.cons_ne_nil s [])
  unfold place
  rw [hcomponents, List.foldlM_append]
  simp only [List.foldlM_cons, List.foldlM_nil, bind_pure]
  rfl

theorem isBelow_root (hroot : Path.IsOpen root) {s : String} (hs : Path.IsName s) :
    Path.isBelow (Path.join root s) root = false := by
  rw [Bool.eq_false_iff, ne_eq, Path.isBelow_iff, hroot.join hs.isAbsolute]
  rintro ⟨rest, heq⟩
  have hlength := congrArg String.length heq
  have hslash : "/".length = 1 := rfl
  simp only [String.length_append, hslash] at hlength
  omega

theorem spelled_cons (hroot : Path.IsOpen root) {s : String} (hs : Path.IsName s)
    {names : List String} (h : ∀ r ∈ names, Path.IsName r) (hne : names ≠ []) :
    spelled root (s :: names) = spelled (Path.join root s) names := by
  have hall : ∀ r ∈ s :: names, Path.IsName r := by
    intro r hr
    rcases List.mem_cons.1 hr with rfl | hr
    · exact hs
    · exact h r hr
  have hempty : ¬names.isEmpty = true := by simpa using hne
  rw [spelled, spelled, if_neg (by simp), if_neg hempty,
    hroot.join (Path.isAbsolute_names hall), (hs.isOpen_join root).join (Path.isAbsolute_names h),
    hroot.join hs.isAbsolute, Path.intercalate_cons hne]
  simp only [String.append_assoc]

theorem isBelow_spelled (hroot : Path.IsOpen root) {s : String} (hs : Path.IsName s)
    {names : List String} (h : ∀ r ∈ names, Path.IsName r) :
    Path.isBelow (Path.join root s) (spelled root names) = true ↔
      ∃ rest, rest ≠ [] ∧ names = s :: rest := by
  cases names with
  | nil =>
    rw [spelled, if_pos (by rfl), isBelow_root hroot hs]
    simp
  | cons r names => exact Path.isBelow_join hroot hs h

/-- A file that is found below a directory is found from there. -/
theorem found_below (h : t.Proper) (hroot : Path.IsOpen root) {s : String} (hs : Path.IsName s)
    {start names : List String} {n : FileNode} (hmem : (start ++ names, n) ∈ t.nodes.entries)
    (hnot : names ≠ [s]) :
    (below? (start ++ [s]) (start ++ names)).map (spelled (Path.join root s)) =
      (some (spelled root names)).filter (Path.isBelow (Path.join root s)) := by
  have hnames : ∀ r ∈ names, Path.IsName r := fun r hr =>
    h.names _ n hmem r (List.mem_append_right start hr)
  cases hbelow : below? (start ++ [s]) (start ++ names) with
  | some rest =>
    have heq := below?_eq_some.1 hbelow
    rw [List.append_assoc, List.append_cancel_left_eq] at heq
    subst heq
    have hne : rest ≠ [] := by
      rintro rfl
      exact hnot rfl
    have hrest : ∀ r ∈ rest, Path.IsName r := fun r hr => hnames r (List.mem_cons_of_mem s hr)
    have hpath : Path.isBelow (Path.join root s) (spelled root (s :: rest)) = true :=
      (isBelow_spelled hroot hs hnames).2 ⟨rest, hne, rfl⟩
    rw [List.singleton_append, Option.map_some, Option.filter_some, hpath, if_pos rfl,
      spelled_cons hroot hs hrest hne]
  | none =>
    rw [Option.map_none, Option.filter_some, if_neg]
    intro hpath
    obtain ⟨rest, -, heq⟩ := (isBelow_spelled hroot hs hnames).1 hpath
    have hsome : below? (start ++ [s]) (start ++ names) = some rest :=
      below?_eq_some.2 (by simp [heq])
    rw [hbelow] at hsome
    cases hsome

/-- Nothing is found below what cannot be reached. -/
theorem isBelow_of_step_error (h : t.Proper) (hroot : Path.IsOpen root) {s : String}
    (hs : Path.IsName s) {start : List String} (hplace : t.place root = .ok start)
    {e : FileError} (hstep : t.step start (.name s) = .error e) {path : String}
    (hpath : path ∈ t.walk root) : Path.isBelow (Path.join root s) path = false := by
  rw [walk_eq hplace] at hpath
  obtain ⟨⟨place, n⟩, hmem, hfound⟩ := List.mem_filterMap.1 hpath
  simp only [Option.ite_none_right_eq_some, Option.map_eq_some_iff, below?_eq_some] at hfound
  obtain ⟨-, names, rfl, rfl⟩ := hfound
  have hnames : ∀ r ∈ names, Path.IsName r := fun r hr =>
    h.names _ n hmem r (List.mem_append_right start hr)
  rw [Bool.eq_false_iff, ne_eq, isBelow_spelled hroot hs hnames]
  rintro ⟨rest, -, rfl⟩
  -- the file lies in a directory, from which the step can be taken
  obtain ⟨m, hm, hdirectory⟩ := h.led _ n hmem start s rest rfl
  unfold step at hstep
  rw [hm] at hstep
  simp [hdirectory] at hstep

theorem isFile_of_mem (h : t.Proper) {path : String} {start : List String} {s : String}
    (hplace : t.place path = .ok (start ++ [s])) {n : FileNode}
    (hmem : (start ++ [s], n) ∈ t.nodes.entries) : t.isFile path = n.isFile := by
  have hget := (SortedMap.get?_eq_some_iff h.ascending).2 hmem
  have hnode : t.node? (start ++ [s]) = some n := by
    rw [node?, if_neg (by simp), hget]
  unfold isFile find
  rw [hplace]
  simp [Except.bind, hnode, Except.toOption]

/-- The files below a directory in another are those below that other one whose paths go on from
the directory. -/
theorem walk_join (h : t.Proper) (hroot : Path.IsOpen root) {s : String} (hs : Path.IsName s)
    (hfile : t.isFile (Path.join root s) = false) :
    t.walk (Path.join root s) = (t.walk root).filter (Path.isBelow (Path.join root s)) := by
  have hjoin : t.place (Path.join root s) = _ := place_join hroot hs
  cases hplace : t.place root with
  | error e =>
    rw [hplace] at hjoin
    unfold walk
    rw [hplace, hjoin]
    rfl
  | ok start =>
    rw [hplace] at hjoin
    change _ = t.step start (.name s) at hjoin
    cases hstep : t.step start (.name s) with
    | error e =>
      have hempty : t.walk (Path.join root s) = [] := by
        unfold walk
        rw [hjoin, hstep]
      rw [hempty, eq_comm, List.filter_eq_nil_iff]
      intro path hpath
      rw [isBelow_of_step_error h hroot hs hplace hstep hpath]
      exact Bool.false_ne_true
    | ok next =>
      obtain rfl := step_name hstep
      rw [hstep] at hjoin
      rw [walk_eq hplace, walk_eq hjoin, List.filter_filterMap]
      apply List.filterMap_congr
      rintro ⟨place, n⟩ hmem
      cases hn : n.isFile with
      | false => rfl
      | true =>
        simp only [if_true]
        cases hbelow : below? start place with
        | none =>
          have hnone : below? (start ++ [s]) place = none := by
            rw [Option.eq_none_iff_forall_ne_some]
            intro names hnames
            rw [below?_eq_some.1 hnames, List.append_assoc] at hbelow
            rw [below?_eq_some.2 rfl] at hbelow
            cases hbelow
          rw [hnone]
          rfl
        | some names =>
          obtain rfl := below?_eq_some.1 hbelow
          refine found_below h hroot hs hmem ?_
          rintro rfl
          -- then the directory itself would be a file
          rw [isFile_of_mem h hjoin hmem, hn] at hfile
          cases hfile

end FileTree

namespace Project

variable {t : FileTree} {base root : String}

theorem dropRepeated_of_pairwise {paths : List String}
    (h : paths.Pairwise fun p q => Path.components p ≠ Path.components q) :
    dropRepeated paths = paths := by
  fun_induction dropRepeated paths with
  | case1 => rfl
  | case2 p => rfl
  | case3 p q r heq ih => exact absurd heq ((List.pairwise_cons.1 h).1 q List.mem_cons_self)
  | case4 p q r hne ih => rw [ih (List.pairwise_cons.1 h).2]

/-- What is found in one directory are the accepted files in order. -/
theorem scanFiles_singleton (h : t.Proper) (hroot : Path.IsOpen root) (base : String)
    (includes excludes : List String) (accept : String → Bool) :
    scanFiles t base [root] includes excludes accept =
      ((t.walk root).filter fun p =>
        accept p && isSelected base (Glob.valid includes) (Glob.valid excludes) p).mergeSort
          Path.le := by
  unfold scanFiles
  rw [List.flatMap_singleton]
  refine dropRepeated_of_pairwise ?_
  refine (List.Perm.pairwise_iff (fun hne => Ne.symm hne) (List.mergeSort_perm _ _)).2 ?_
  exact (FileTree.pairwise_walk h hroot).filter _

theorem scanFiles_of_length (h : t.Proper) (hroot : Path.IsOpen root) {base : String}
    {includes excludes : List String} {accept : String → Bool} {paths : List String}
    (hfound : (t.walk root).filter (fun p =>
      accept p && isSelected base (Glob.valid includes) (Glob.valid excludes) p) = paths)
    (hlength : paths.length ≤ 1) :
    scanFiles t base [root] includes excludes accept = paths := by
  rw [scanFiles_singleton h hroot, hfound]
  cases paths with
  | nil => exact List.mergeSort_nil
  | cons p rest =>
    obtain rfl : rest = [] := by simpa using hlength
    exact List.mergeSort_singleton p

/-- A search in a directory of another one finds what the search there finds below it. -/
theorem scanFiles_below (h : t.Proper) (hroot : Path.IsOpen root) {s : String}
    (hs : Path.IsName s) (hfile : t.isFile (Path.join root s) = false) (base : String)
    (includes excludes : List String) (accept : String → Bool) :
    scanFiles t base [Path.join root s] includes excludes accept =
      (scanFiles t base [root] includes excludes accept).filter
        (Path.isBelow (Path.join root s)) := by
  rw [scanFiles_singleton h hroot, scanFiles_singleton h (hs.isOpen_join root),
    FileTree.walk_join h hroot hs hfile]
  have hdistinct := FileTree.pairwise_walk h hroot
  generalize t.walk root = found at hdistinct ⊢
  rw [List.filter_comm]
  generalize hkept : found.filter (fun p => accept p &&
    isSelected base (Glob.valid includes) (Glob.valid excludes) p) = kept
  have hkept' : kept.Pairwise fun p q => Path.components p ≠ Path.components q :=
    hkept ▸ hdistinct.filter _
  have hsorted (paths : List String) :
      (paths.mergeSort Path.le).Pairwise fun p q => Path.le p q = true :=
    List.pairwise_mergeSort Path.le_trans Path.le_total paths
  have hperm : ((kept.filter (Path.isBelow (Path.join root s))).mergeSort Path.le).Perm
      ((kept.mergeSort Path.le).filter (Path.isBelow (Path.join root s))) :=
    (List.mergeSort_perm _ _).trans ((List.mergeSort_perm _ _).symm.filter _)
  refine hperm.eq_of_pairwise ?_ (hsorted _) ((hsorted kept).filter _)
  intro p q hp hq hpq hqp
  have hp : p ∈ kept := List.mem_of_mem_filter ((List.mergeSort_perm _ _).mem_iff.1 hp)
  have hq : q ∈ kept := (List.mergeSort_perm _ _).mem_iff.1 (List.mem_of_mem_filter hq)
  -- paths of which none comes first have the same components, so they are one path
  have hnodup : (kept.map Path.components).Nodup := List.pairwise_map.2 hkept'
  exact List.inj_on_of_nodup_map hnodup hp hq (Path.components_eq_of_le hpq hqp)

end Project

end TranslationAudit
