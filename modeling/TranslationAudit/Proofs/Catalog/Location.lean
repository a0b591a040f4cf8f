import TranslationAudit.Catalog.Location
import TranslationAudit.Proofs.Path

/-! # The package of a path

* `packageOf?`: the package whose directory a path lies in.
* `package?_eq_some`: how the directory of a package is recognised.
* `packageOf?_of_isBelow`: what goes on from the directory of a package is in that package.
-/

namespace TranslationAudit.Catalog

/-- The package whose directory a path lies in. -/
def packageOf? (path : String) : Option String := findAt? package? (Path.withSlashes path).toList

theorem ofPath?_eq_some {path : String} {l : Location} {package : Option String} :
    Location.ofPath? path package = some l ↔
      package.or (packageOf? path) = some l.package ∧ ∃ source,
        findAt? translations? (Path.withSlashes path).toList = some (l.locale, source) ∧
        l.source = foldSource source := by
  obtain ⟨locale, name, source⟩ := l
  unfold Location.ofPath?
  dsimp only
  cases findAt? translations? (Path.withSlashes path).toList with
  | none => simp
  | some found =>
    obtain ⟨locale', source'⟩ := found
    simp only [Option.map_eq_some_iff, Location.mk.injEq, Option.some.injEq, Prod.mk.injEq]
    constructor
    · rintro ⟨name', hname, rfl, rfl, rfl⟩
      exact ⟨hname, _, ⟨rfl, rfl⟩, rfl⟩
    · rintro ⟨hname, _, ⟨rfl, rfl⟩, rfl⟩
      exact ⟨name, hname, rfl, rfl, rfl⟩

/-! ## The directory of a package -/

def rootText (root : String) : List Char := ("/" ++ root ++ "/").toList

/-- The text that is recognised as the directory of a package. -/
def directoryText (root package : String) : List Char :=
  rootText root ++ (package.toList ++ ['/'])

theorem rootText_differ :
    ∀ root ∈ packageRoots, ∀ other ∈ packageRoots, root ≠ other →
      ((rootText root).zip (rootText other)).any (fun e => e.1 ≠ e.2) = true := by
  decide

theorem package?_eq_some {s : List Char} {package : String} :
    package? s = some package ↔
      package ≠ "" ∧ '/' ∉ package.toList ∧
        ∃ root ∈ packageRoots, ∃ rest, s = directoryText root package ++ rest := by
  constructor
  · intro h
    obtain ⟨root, hroot, hfound⟩ := List.exists_of_findSome?_eq_some h
    obtain ⟨rest, hrest, hfound⟩ := Option.bind_eq_some_iff.1 hfound
    obtain ⟨⟨name, below⟩, hcut, hfound⟩ := Option.bind_eq_some_iff.1 hfound
    obtain ⟨hsplit, hslash⟩ := Text.eq_append_of_cutAt? hcut
    dsimp only at hfound
    rw [Option.ite_none_left_eq_some, List.isEmpty_iff, Option.some.injEq] at hfound
    obtain ⟨hne, rfl⟩ := hfound
    refine ⟨?_, by simpa using hslash, root, hroot, below, ?_⟩
    · intro hempty
      exact hne (by simpa using congrArg String.toList hempty)
    · rw [Text.eq_append_of_after? hrest, hsplit]
      simp [directoryText, rootText]
  · rintro ⟨hne, hslash, root, hroot, rest, rfl⟩
    obtain ⟨before, after, hroots⟩ := List.append_of_mem hroot
    have hnodup : packageRoots.Nodup := by decide
    have hempty : package.toList.isEmpty = false := by simpa using hne
    refine List.findSome?_eq_some_iff.2 ⟨before, root, after, hroots, ?_, ?_⟩
    · have hafter : Text.after? (rootText root) (directoryText root package ++ rest) =
          some (package.toList ++ '/' :: rest) := by
        rw [directoryText, List.append_assoc, Text.after?_append]
        simp
      change (Text.after? (rootText root) _).bind _ = _
      rw [hafter, Option.bind_some, Text.cutAt?_append hslash, Option.bind_some]
      simp [hempty]
    · intro other hother
      have hmem : other ∈ packageRoots := hroots ▸ List.mem_append_left _ hother
      have hother : other ≠ root := by
        rintro rfl
        rw [hroots] at hnodup
        exact (List.nodup_append.1 hnodup).2.2 other hother other List.mem_cons_self rfl
      have hafter : Text.after? (rootText other) (directoryText root package ++ rest) = none := by
        rw [directoryText, List.append_assoc]
        exact Text.after?_append_of_differ (rootText_differ other hmem root hroot hother) _
      change (Text.after? (rootText other) _).bind _ = _
      rw [hafter]
      rfl

theorem package?_append {s : List Char} {package : String} (h : package? s = some package)
    (rest : List Char) : package? (s ++ rest) = some package := by
  obtain ⟨hne, hslash, root, hroot, below, rfl⟩ := package?_eq_some.1 h
  exact package?_eq_some.2 ⟨hne, hslash, root, hroot, below ++ rest, by rw [List.append_assoc]⟩

/-! ### The first directory of a path -/

theorem count_directoryText {root package : String} (hroot : root ∈ packageRoots)
    (hslash : '/' ∉ package.toList) :
    3 ≤ (directoryText root package).count '/' ∧ (directoryText root package).count '/' ≤ 4 := by
  have hroots : ∀ root ∈ packageRoots,
      2 ≤ (rootText root).count '/' ∧ (rootText root).count '/' ≤ 3 := by decide
  have hcount := hroots root hroot
  rw [directoryText, List.count_append, List.count_append, List.count_eq_zero_of_not_mem hslash]
  simp only [List.count_singleton_self]
  omega

theorem exists_directoryText (root package : String) :
    ∃ inner, directoryText root package = '/' :: inner ++ ['/'] :=
  ⟨root.toList ++ '/' :: package.toList, by simp [directoryText, rootText]⟩

/-- Where no directory of a package begins although one begins later, none begins in what goes on
from there. -/
theorem package?_eq_none_append {c : Char} {s : List Char} (h : package? (c :: s) = none)
    (hlater : 3 ≤ s.count '/') (rest : List Char) : package? (c :: s ++ rest) = none := by
  rw [Option.eq_none_iff_forall_ne_some]
  intro package hpackage
  obtain ⟨hne, hslash, root, hroot, below, heq⟩ := package?_eq_some.1 hpackage
  have hlonger (more : List Char) : c :: s ≠ directoryText root package ++ more := by
    intro hmore
    rw [package?_eq_some.2 ⟨hne, hslash, root, hroot, more, hmore⟩] at h
    cases h
  rcases List.append_eq_append_iff.1 heq with ⟨more, hmore, -⟩ | ⟨more, hmore, -⟩
  · rcases List.eq_nil_or_concat more with rfl | ⟨front, last, rfl⟩
    · exact hlonger [] (by rw [hmore, List.append_nil, List.append_nil])
    · -- then the directory would have too many slashes
      have hshort := (count_directoryText hroot hslash).2
      obtain ⟨inner, hinner⟩ := exists_directoryText root package
      rw [hmore, List.concat_eq_append, List.count_append, List.count_append] at hshort
      rw [hmore, List.concat_eq_append, ← List.append_assoc] at hinner
      obtain ⟨hfront, hlast⟩ := List.append_inj' hinner rfl
      obtain rfl := (List.cons.inj hfront).1
      obtain rfl := List.singleton_inj.1 hlast
      simp only [List.count_cons_self, List.count_nil] at hshort
      omega
  · exact hlonger more hmore

theorem count_of_findAt? {s : List Char} {package : String}
    (h : findAt? package? s = some package) : 3 ≤ s.count '/' := by
  have hhere {s : List Char} (h : package? s = some package) : 3 ≤ s.count '/' := by
    obtain ⟨-, hslash, root, hroot, rest, rfl⟩ := package?_eq_some.1 h
    have hcount := (count_directoryText hroot hslash).1
    rw [List.count_append]
    omega
  induction s with
  | nil => exact hhere h
  | cons c s ih =>
    rw [findAt?] at h
    split at h
    · next hfound =>
      cases h
      exact hhere hfound
    · exact Nat.le_trans (ih h) List.count_le_count_cons

theorem findAt?_append {s : List Char} {package : String} (h : findAt? package? s = some package)
    (rest : List Char) : findAt? package? (s ++ rest) = some package := by
  induction s with
  | nil =>
    have hnil : package? [] = none := by decide
    rw [findAt?, hnil] at h
    cases h
  | cons c s ih =>
    rw [findAt?] at h
    rw [List.cons_append, findAt?, ← List.cons_append]
    cases hfound : package? (c :: s) with
    | some found =>
      rw [hfound] at h
      rw [package?_append hfound]
      exact h
    | none =>
      rw [hfound] at h
      rw [package?_eq_none_append hfound (count_of_findAt? h)]
      exact ih h

/-- What goes on from the directory of a package is in that package. -/
theorem packageOf?_of_isBelow {directory path package : String}
    (h : packageOf? (directory ++ "/") = some package)
    (hpath : Path.isBelow directory path = true) : packageOf? path = some package := by
  obtain ⟨rest, rfl⟩ := Path.isBelow_iff.1 hpath
  unfold packageOf? Path.withSlashes at h ⊢
  rw [String.toList_ofList] at h ⊢
  rw [String.toList_append (s := directory ++ "/"), List.map_append]
  exact findAt?_append h _

end TranslationAudit.Catalog
