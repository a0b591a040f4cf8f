import Mathlib.Data.List.Infix
import TranslationAudit.Proofs.Catalog.Location
import TranslationAudit.Proofs.Path.Segment
import TranslationAudit.Proofs.Text.Ascii

/-! # Searching the segments of a path

The translations directory and the package of a path are looked for in its text. Both patterns begin
and end with a slash, so only the beginnings of segments count.

* `Catalog.findAt?_spell_append`: a search through a path looks at its segments one after another.
* `Catalog.translations?_spell`, `Catalog.translations?_eq_none_spell`: what the segments of a path
  say about locale and source.
* `Catalog.findAt?_translations_below`: behind segments that lead into no translations directory the
  next one counts.
* `Catalog.package?_spell`, `Catalog.exists_root_of_package?_spell`: what they say about the package.
-/

namespace TranslationAudit.Catalog

/-! ## Letters of any case -/

theorem sameLetter_slash_left (c : Char) : Text.sameLetter '/' c = decide (c = '/') := by
  have hs : ('/' == 's') = false := rfl
  have hk : ('/' == 'k') = false := rfl
  rw [Text.sameLetter, hs, hk, Bool.false_and, Bool.false_and, Bool.or_false, Bool.or_false,
    Bool.eq_iff_iff, beq_iff_eq, decide_eq_true_iff]
  exact Text.toLower_eq_slash

theorem sameLetter_slash_right (p : Char) : Text.sameLetter p '/' = decide (p = '/') := by
  have hlower : '/'.toLower = '/' := rfl
  have hs : ('/'.toNat == 0x17F) = false := rfl
  have hk : ('/'.toNat == 0x212A) = false := rfl
  rw [Text.sameLetter, hlower, hs, hk, Bool.and_false, Bool.and_false, Bool.or_false,
    Bool.or_false, Bool.eq_iff_iff, beq_iff_eq, decide_eq_true_iff]
  exact eq_comm

/-- Whether a segment is a lower case name up to case. -/
def isNamed (name : String) (s : List Char) : Bool :=
  afterIgnoringCase? name.toList s = some []

theorem afterIgnoringCase?_append {p s : List Char} (h : afterIgnoringCase? p s = some [])
    (rest : List Char) : afterIgnoringCase? p (s ++ rest) = some rest := by
  induction p generalizing s with
  | nil =>
    rw [afterIgnoringCase?, Option.some.injEq] at h
    rw [h, List.nil_append, afterIgnoringCase?]
  | cons c p ih =>
    cases s with
    | nil => cases h
    | cons d s =>
      rw [afterIgnoringCase?] at h
      rw [List.cons_append, afterIgnoringCase?]
      split at h
      · next hsame => rw [if_pos hsame, ih h]
      · cases h

theorem afterIgnoringCase?_slash (p : List Char) {c : Char} (s : List Char) :
    afterIgnoringCase? ('/' :: p) (c :: s) = if c = '/' then afterIgnoringCase? p s else none := by
  rw [afterIgnoringCase?, sameLetter_slash_left]
  simp only [decide_eq_true_eq]

/-- A name of a pattern is compared with a segment. -/
theorem of_afterIgnoringCase?_append {name s p left : List Char} {segments : List (List Char)}
    (hname : '/' ∉ name) (hs : '/' ∉ s)
    (h : afterIgnoringCase? (name ++ '/' :: p) (s ++ Path.spell segments) = some left) :
    afterIgnoringCase? name s = some [] ∧
      afterIgnoringCase? ('/' :: p) (Path.spell segments) = some left := by
  induction name generalizing s with
  | nil =>
    cases s with
    | nil => exact ⟨rfl, h⟩
    | cons c s =>
      have hc : c ≠ '/' := fun heq => hs (heq ▸ List.mem_cons_self)
      rw [List.nil_append, List.cons_append, afterIgnoringCase?_slash, if_neg hc] at h
      cases h
  | cons n name ih =>
    have hn : n ≠ '/' := fun heq => hname (heq ▸ List.mem_cons_self)
    cases s with
    | nil =>
      cases segments with
      | nil => cases h
      | cons t segments =>
        rw [Path.spell_cons, List.nil_append, List.cons_append, afterIgnoringCase?,
          sameLetter_slash_right, if_neg (by simpa using hn)] at h
        cases h
    | cons c s =>
      rw [List.cons_append, List.cons_append, afterIgnoringCase?] at h
      split at h
      · next hsame =>
        rw [afterIgnoringCase?, if_pos hsame]
        exact ih (fun h => hname (List.mem_cons_of_mem n h))
          (fun h => hs (List.mem_cons_of_mem c h)) h
      · cases h

/-- A pattern that begins with a name goes on behind the first segment. -/
theorem of_afterIgnoringCase?_spell {name p left : List Char} {segments : List (List Char)}
    (hname : '/' ∉ name) (hfree : ∀ s ∈ segments, '/' ∉ s)
    (h : afterIgnoringCase? ('/' :: (name ++ '/' :: p)) (Path.spell segments) = some left) :
    ∃ s rest, segments = s :: rest ∧ afterIgnoringCase? name s = some [] ∧
      afterIgnoringCase? ('/' :: p) (Path.spell rest) = some left := by
  cases segments with
  | nil => cases h
  | cons s rest =>
    rw [Path.spell_cons, afterIgnoringCase?_slash, if_pos rfl] at h
    exact ⟨s, rest, rfl, of_afterIgnoringCase?_append hname (hfree s List.mem_cons_self) h⟩

/-! ## Searching a path -/

theorem findAt?_of_eq_some {α : Type} {f : List Char → Option α} {s : List Char} {a : α}
    (h : f s = some a) : findAt? f s = some a := by
  cases s with
  | nil => exact h
  | cons c s => rw [findAt?, h]

/-- A search that finds nothing where no segment begins. -/
theorem findAt?_append_spell {α : Type} {f : List Char → Option α}
    (hf : ∀ c s, c ≠ '/' → f (c :: s) = none) {s : List Char} (hs : '/' ∉ s) (rest : List Char) :
    findAt? f (s ++ rest) = findAt? f rest := by
  induction s with
  | nil => rfl
  | cons c s ih =>
    have hc : c ≠ '/' := fun heq => hs (heq ▸ List.mem_cons_self)
    rw [List.cons_append, findAt?, hf c _ hc, ih fun h => hs (List.mem_cons_of_mem c h)]

theorem findAt?_spell_append {α : Type} {f : List Char → Option α}
    (hf : ∀ c s, c ≠ '/' → f (c :: s) = none) {front : List (List Char)}
    (hfront : ∀ s ∈ front, '/' ∉ s) {rest : List (List Char)}
    (hnone : ∀ u, u ≠ [] → u <:+ front → f (Path.spell (u ++ rest)) = none) :
    findAt? f (Path.spell (front ++ rest)) = findAt? f (Path.spell rest) := by
  induction front with
  | nil => rfl
  | cons s front ih =>
    have hhere := hnone (s :: front) (List.cons_ne_nil _ _) List.suffix_rfl
    rw [List.cons_append, Path.spell_cons] at hhere ⊢
    rw [findAt?, hhere, findAt?_append_spell hf (hfront s List.mem_cons_self)]
    refine ih (fun t ht => hfront t (List.mem_cons_of_mem s ht)) ?_
    intro u hne hu
    exact hnone u hne (hu.trans (List.suffix_cons s front))

/-! ### The translations directory -/

/-- Whether the first segments lead into a translations directory, in any case. -/
def beginsTranslations : List (List Char) → Bool
  | a :: b :: c :: _ => isNamed "resources" a && isNamed "private" b && isNamed "translations" c
  | _ => false

theorem beginsTranslations_append {segments : List (List Char)}
    (h : beginsTranslations segments = true) (rest : List (List Char)) :
    beginsTranslations (segments ++ rest) = true := by
  match segments, h with
  | _ :: _ :: _ :: _, h => exact h

/-- A segment with another name leads nowhere. -/
theorem beginsTranslations_append_cons {s : List Char} (hresources : isNamed "resources" s = false)
    (hprivate : isNamed "private" s = false) (htranslations : isNamed "translations" s = false)
    (segments rest : List (List Char)) :
    beginsTranslations (segments ++ s :: rest) = beginsTranslations segments := by
  match segments with
  | [] => cases rest with
    | nil => rfl
    | cons t rest => cases rest <;> simp [beginsTranslations, hresources]
  | [_] => cases rest <;> simp [beginsTranslations, hprivate]
  | [_, _] => simp [beginsTranslations, htranslations]
  | _ :: _ :: _ :: _ => rfl

/-- The names on the way into a translations directory. -/
theorem translationsText_eq : "/resources/private/translations/".toList =
    '/' :: ("resources".toList ++ '/' :: ("private".toList ++
      '/' :: ("translations".toList ++ ['/']))) := rfl

theorem translations?_of_ne (c : Char) (s : List Char) (h : c ≠ '/') :
    translations? (c :: s) = none := by
  rw [translations?, translationsText_eq, afterIgnoringCase?_slash, if_neg h]

theorem translations?_eq_none_spell {segments : List (List Char)}
    (hfree : ∀ s ∈ segments, '/' ∉ s) (h : beginsTranslations segments = false) :
    translations? (Path.spell segments) = none := by
  have hnone : afterIgnoringCase? "/resources/private/translations/".toList
      (Path.spell segments) = none := by
    rw [Option.eq_none_iff_forall_ne_some]
    intro left hleft
    rw [translationsText_eq] at hleft
    obtain ⟨a, rest, rfl, ha, hleft⟩ := of_afterIgnoringCase?_spell (by decide) hfree hleft
    rw [List.forall_mem_cons] at hfree
    obtain ⟨b, rest, rfl, hb, hleft⟩ := of_afterIgnoringCase?_spell (by decide) hfree.2 hleft
    rw [List.forall_mem_cons] at hfree
    obtain ⟨c, rest, rfl, hc, -⟩ := of_afterIgnoringCase?_spell (by decide) hfree.2.2 hleft
    rw [beginsTranslations, isNamed, isNamed, isNamed, ha, hb, hc] at h
    cases h
  rw [translations?, hnone]

/-- The names of the directories below a package in which its catalogs lie. -/
def translationsNames : List (List Char) :=
  ["Resources".toList, "Private".toList, "Translations".toList]

theorem translations?_spell {locale source : List Char} (hlocale : '/' ∉ locale)
    (hne : locale ≠ []) (hsource : source ≠ []) (hbreak : '\n' ∉ source) :
    translations? (Path.spell (translationsNames ++
      locale :: Text.split (· = '/') (source ++ ".xlf".toList))) =
        some (String.ofList locale, String.ofList source) := by
  have htext : Path.spell (translationsNames ++
      locale :: Text.split (· = '/') (source ++ ".xlf".toList)) =
        "/Resources/Private/Translations/".toList ++
          (locale ++ '/' :: (source ++ ".xlf".toList)) := by
    rw [Path.spell_append, Path.spell_cons, Path.spell_split]
    rfl
  have hpattern : afterIgnoringCase? "/resources/private/translations/".toList
      "/Resources/Private/Translations/".toList = some [] := by
    decide
  have hending : beforeEnding? (source ++ ".xlf".toList) = some source := by
    have hlength : (source ++ ".xlf".toList).length - 4 = source.length := by
      have hfour : ".xlf".toList.length = 4 := rfl
      rw [List.length_append, hfour, Nat.add_sub_cancel]
    have hxlf : afterIgnoringCase? ".xlf".toList ".xlf".toList = some [] := by decide
    rw [beforeEnding?, hlength, List.drop_left, List.take_left]
    simp only [hxlf]
  have hlocale' : locale.isEmpty = false := by simpa using hne
  have hsource' : source.isEmpty = false := by simpa using hsource
  have hbreak' : source.contains '\n' = false := by simpa using hbreak
  rw [translations?, htext, afterIgnoringCase?_append hpattern]
  simp only [Text.cutAt?_append hlocale, hending, hlocale', hsource', hbreak', Bool.or_self,
    Bool.false_eq_true, if_false]

/-- The names of the directories are no continuation of others. -/
theorem beginsTranslations_append_names {u : List (List Char)} (hne : u ≠ [])
    (rest : List (List Char)) :
    beginsTranslations (u ++ (translationsNames ++ rest)) = beginsTranslations u := by
  have hprivate : isNamed "private" "Resources".toList = false := by decide
  have htranslations : isNamed "translations" "Resources".toList = false := by decide
  match u with
  | [a] =>
    change beginsTranslations (a :: "Resources".toList :: "Private".toList :: _) = false
    rw [beginsTranslations, hprivate, Bool.and_false, Bool.false_and]
  | [a, b] =>
    change beginsTranslations (a :: b :: "Resources".toList :: _) = false
    rw [beginsTranslations, htranslations, Bool.and_false]
  | _ :: _ :: _ :: _ => rfl

/-- Behind segments that lead into no translations directory the next one counts. -/
theorem findAt?_translations_below {front rest : List (List Char)} (hfront : ∀ s ∈ front, '/' ∉ s)
    (hrest : ∀ s ∈ rest, '/' ∉ s) (h : ∀ u, u <:+ front → beginsTranslations u = false) :
    findAt? translations? (Path.spell (front ++ (translationsNames ++ rest))) =
      findAt? translations? (Path.spell (translationsNames ++ rest)) := by
  have hnames : ∀ s ∈ translationsNames, '/' ∉ s := by decide
  refine findAt?_spell_append translations?_of_ne hfront fun u hne hu => ?_
  refine translations?_eq_none_spell ?_ ?_
  · exact List.forall_mem_append.2 ⟨fun s hs => hfront s (hu.subset hs),
      List.forall_mem_append.2 ⟨hnames, hrest⟩⟩
  · rw [beginsTranslations_append_names hne]
    exact h u hu

/-! ### The directory of a package -/

theorem package?_of_ne (c : Char) (s : List Char) (h : c ≠ '/') : package? (c :: s) = none := by
  rw [Option.eq_none_iff_forall_ne_some]
  intro package hpackage
  obtain ⟨-, -, root, -, rest, heq⟩ := package?_eq_some.1 hpackage
  obtain ⟨inner, hinner⟩ := exists_directoryText root package
  rw [hinner] at heq
  exact h (List.cons.inj heq).1

theorem directoryText_eq (root package : String) (rest : List Char) :
    directoryText root package ++ rest =
      Path.spell (Text.split (· = '/') root.toList ++
        package.toList :: Text.split (· = '/') rest) := by
  rw [Path.spell_append, Path.spell_cons, Path.spell_split, Path.spell_split]
  simp [directoryText, rootText]

theorem exists_root_of_package?_spell {segments : List (List Char)} {package : String}
    (hfree : ∀ s ∈ segments, '/' ∉ s) (h : package? (Path.spell segments) = some package) :
    ∃ root ∈ packageRoots,
      Text.split (· = '/') root.toList ++ [package.toList] <+: segments := by
  obtain ⟨-, hslash, root, hroot, rest, heq⟩ := package?_eq_some.1 h
  refine ⟨root, hroot, Text.split (· = '/') rest, ?_⟩
  have hsegments : ∀ s ∈ Text.split (· = '/') root.toList ++
      package.toList :: Text.split (· = '/') rest, '/' ∉ s := by
    intro s hs
    rcases List.mem_append.1 hs with hs | hs
    · exact Path.slash_not_mem_of_mem_split hs
    · rcases List.mem_cons.1 hs with rfl | hs
      · exact hslash
      · exact Path.slash_not_mem_of_mem_split hs
  rw [directoryText_eq] at heq
  have hsplit := congrArg (Text.split (· = '/')) heq
  rw [Path.split_spell hfree, Path.split_spell hsegments, List.cons.injEq] at hsplit
  rw [List.append_assoc, List.singleton_append, hsplit.2]

theorem package?_spell {root package : String} (hroot : root ∈ packageRoots)
    (hslash : '/' ∉ package.toList) (hne : package ≠ "") (rest : List Char) :
    package? (Path.spell (Text.split (· = '/') root.toList ++
      package.toList :: Text.split (· = '/') rest)) = some package :=
  package?_eq_some.2 ⟨hne, hslash, root, hroot, rest, (directoryText_eq root package rest).symm⟩

end TranslationAudit.Catalog
