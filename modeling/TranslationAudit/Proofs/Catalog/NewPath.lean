import TranslationAudit.Proofs.Catalog.Search
import TranslationAudit.Proofs.Message.Resolve

/-! # New catalogs are read back

* `Catalog.IsSegment`: texts that are one segment of a path.
* `Catalog.IsOutside`: directories whose paths say nothing about packages and catalogs.
* `Catalog.toList_newPath?`: the segments of the path of a new catalog.
* `Catalog.newPath?_reads_back`: the path of a new catalog has the location that it was made for.
-/

namespace TranslationAudit.Catalog

/-- A text that is one segment of a path. -/
structure IsSegment (s : String) : Prop where
  nonempty : s ≠ ""
  slash : '/' ∉ s.toList
  backslash : '\\' ∉ s.toList

/-- Absolute directories that lie in no package root and in no translations directory. -/
structure IsOutside (base : String) : Prop where
  absolute : Path.isAbsolute base = true
  backslash : '\\' ∉ base.toList
  roots : ∀ root ∈ packageRoots,
    ¬ Text.split (· = '/') root.toList <:+: Path.segments base
  translations : ∀ s, s <:+ Path.segments base → beginsTranslations s = false

theorem IsSegment.isAbsolute {s : String} (h : IsSegment s) : Path.isAbsolute s = false := by
  have hhead : s.toList.head? ≠ some '/' := fun heq => h.slash (List.mem_of_mem_head? heq)
  simpa [Path.isAbsolute] using hhead

theorem IsSegment.isOpen {s : String} (h : IsSegment s) : Path.IsOpen s := by
  have hne : s.toList ≠ [] := fun heq => h.nonempty (String.toList_inj.1 heq)
  exact ⟨s.toList.getLast hne, List.getLast?_eq_some_getLast hne,
    fun heq => h.slash (heq ▸ List.getLast_mem hne)⟩

/-- The path of a source within the directory of its locale, without the ending. -/
def sourcePath (source : String) : List Char :=
  source.toList.map fun c => if c = '.' then '/' else c

theorem not_mem_sourcePath {source : String} {c : Char} (hslash : c ≠ '/')
    (h : c ∉ source.toList) : c ∉ sourcePath source := by
  intro hmem
  obtain ⟨d, hd, heq⟩ := List.mem_map.1 hmem
  split at heq
  · exact hslash heq.symm
  · exact h (heq ▸ hd)

theorem sourcePath_ne_nil {source : String} (h : IsSourceName source) : sourcePath source ≠ [] := by
  simpa [sourcePath] using h.nonempty

theorem toList_catalogPath {locale source : String} (hlocale : IsSegment locale)
    (hsource : IsSourceName source) :
    '/' :: (catalogPath locale source).toList = Path.spell (translationsNames ++
      locale.toList :: Text.split (· = '/') (sourcePath source ++ ".xlf".toList)) := by
  have hfile : Path.isAbsolute (String.ofList (sourcePath source) ++ ".xlf") = false := by
    obtain ⟨c, s, hs⟩ := List.exists_cons_of_ne_nil (l := source.toList)
      fun heq => hsource.nonempty (String.toList_inj.1 heq)
    have hdot : c ≠ '.' := fun heq => hsource.first (by simp [hs, heq])
    have hslash : c ≠ '/' := fun heq => hsource.slash (by simp [hs, heq])
    simp [Path.isAbsolute, sourcePath, hs, hdot, hslash]
  have hopen : Path.IsOpen "Resources/Private/Translations" := ⟨'s', by decide⟩
  have hjoin : catalogPath locale source = "Resources/Private/Translations" ++ "/" ++ locale ++
      "/" ++ (String.ofList (sourcePath source) ++ ".xlf") := by
    rw [catalogPath, ← sourcePath, (hlocale.isOpen.isOpen_join _).join hfile,
      hopen.join hlocale.isAbsolute]
  rw [hjoin, Path.spell_append, Path.spell_cons, Path.spell_split]
  simp only [String.toList_append, String.toList_ofList, List.append_assoc]
  rfl

theorem isAbsolute_catalogPath {locale source : String} (hlocale : IsSegment locale)
    (hsource : IsSourceName source) : Path.isAbsolute (catalogPath locale source) = false := by
  obtain ⟨rest, hrest⟩ : ∃ rest, (catalogPath locale source).toList = 'R' :: rest :=
    ⟨_, (List.cons.inj (toList_catalogPath hlocale hsource)).2⟩
  simp [Path.isAbsolute, hrest]

theorem backslash_not_mem_catalogPath {locale source : String} (hlocale : IsSegment locale)
    (hsource : IsSourceName source) : '\\' ∉ (catalogPath locale source).toList := by
  have hfile : '\\' ∉ (String.ofList (sourcePath source) ++ ".xlf").toList := by
    rw [String.toList_append, String.toList_ofList, List.mem_append, not_or]
    exact ⟨not_mem_sourcePath (by decide) hsource.backslash, by decide⟩
  have hlocale : '\\' ∉ (Path.join "Resources/Private/Translations" locale).toList :=
    Path.not_mem_join (by decide) (by decide) hlocale.backslash
  exact Path.not_mem_join (by decide) hlocale hfile

section NewPath

variable {isDirectory : String → Bool} {base path : String} {l : Location}

theorem exists_root_of_newPath? (h : newPath? isDirectory base [] l = some path) :
    ∃ root ∈ writableRoots, path =
      Path.join (Path.join (Path.join base root) l.package) (catalogPath l.locale l.source) := by
  obtain ⟨directory, hfound, rfl⟩ := Option.map_eq_some_iff.1 h
  obtain ⟨root, hroot, rfl⟩ := List.mem_map.1 (List.mem_of_find?_eq_some hfound)
  exact ⟨root, hroot, rfl⟩

/-- The segments of a new path below the directory of its package. -/
def relativeSegments (l : Location) : List (List Char) :=
  translationsNames ++
    l.locale.toList :: Text.split (· = '/') (sourcePath l.source ++ ".xlf".toList)

/-- The segments of a new path: some of its base, the root, the package and those below it. -/
theorem toList_newPath? (hbase : Path.isAbsolute base = true) (hpackage : IsSegment l.package)
    (hlocale : IsSegment l.locale) (hsource : IsSourceName l.source)
    (h : newPath? isDirectory base [] l = some path) :
    ∃ front, front <+: Path.segments base ∧ ∃ root ∈ writableRoots,
      path.toList = Path.spell (front ++ (Text.split (· = '/') root.toList ++
        (l.package.toList :: relativeSegments l))) := by
  have hroots : ∀ root ∈ writableRoots, Path.isAbsolute root = false ∧ Path.IsOpen root := by
    decide
  obtain ⟨root, hroot, hjoined⟩ := exists_root_of_newPath? h
  obtain ⟨hrelative, hopen⟩ := hroots root hroot
  obtain ⟨front, hfront, hjoin⟩ := Path.exists_toList_join hbase hrelative
  have hpath := toList_catalogPath hlocale hsource
  have hcatalog := isAbsolute_catalogPath hlocale hsource
  have hpackageJoin := (hopen.isOpen_join base).toList_join hpackage.isAbsolute hjoin
  have hall := (hpackage.isOpen.isOpen_join _).toList_join hcatalog hpackageJoin
  refine ⟨front, hfront, root, hroot, ?_⟩
  rw [hjoined, hall, Path.spell_append, Path.spell_split, hpath, ← relativeSegments,
    Path.split_of_slash_not_mem hpackage.slash]
  simp

theorem backslash_not_mem_newPath? (hbase : '\\' ∉ base.toList) (hpackage : IsSegment l.package)
    (hlocale : IsSegment l.locale) (hsource : IsSourceName l.source)
    (h : newPath? isDirectory base [] l = some path) : '\\' ∉ path.toList := by
  have hroots : ∀ root ∈ writableRoots, '\\' ∉ root.toList := by decide
  obtain ⟨root, hroot, hjoined⟩ := exists_root_of_newPath? h
  have hdirectory : '\\' ∉ (Path.join (Path.join base root) l.package).toList :=
    Path.not_mem_join (by decide) (Path.not_mem_join (by decide) hbase (hroots root hroot))
      hpackage.backslash
  rw [hjoined]
  exact Path.not_mem_join (by decide) hdirectory (backslash_not_mem_catalogPath hlocale hsource)

/-! ## What is read back -/

theorem isNamed_of_mem_root : ∀ root ∈ writableRoots, ∀ s ∈ Text.split (· = '/') root.toList,
    isNamed "resources" s = false ∧ isNamed "private" s = false ∧
      isNamed "translations" s = false := by
  decide

theorem tail_root_ne_head :
    ∀ other ∈ packageRoots, ∀ root ∈ writableRoots, ∀ s,
      (Text.split (· = '/') root.toList).head? = some s →
        s ∉ (Text.split (· = '/') other.toList).tail := by
  decide

/-- The beginnings of segments lead into no translations directory if all of them do not. -/
theorem beginsTranslations_of_prefix {segments front u : List (List Char)}
    (h : ∀ s, s <:+ segments → beginsTranslations s = false) (hfront : front <+: segments)
    (hu : u <:+ front) : beginsTranslations u = false := by
  obtain ⟨rest, hrest⟩ := hfront
  obtain ⟨before, rfl⟩ := hu
  rw [Bool.eq_false_iff]
  intro hbegins
  have hsuffix : u ++ rest <:+ segments := ⟨before, by rw [← hrest, List.append_assoc]⟩
  have hall := h _ hsuffix
  rw [beginsTranslations_append hbegins] at hall
  cases hall

/-- The directory of a package outside leads into no translations directory. -/
theorem IsOutside.beginsTranslations_eq_false (h : IsOutside base) {front u : List (List Char)}
    (hfront : front <+: Path.segments base) {root : String} (hroot : root ∈ writableRoots)
    {package : List Char} (hu : u <:+ front ++ (Text.split (· = '/') root.toList ++ [package])) :
    beginsTranslations u = false := by
  -- a segment of the root ends every beginning of the names
  have hstop (u : List (List Char)) {s : List Char}
      (hs : s ∈ Text.split (· = '/') root.toList) (more : List (List Char)) :
      beginsTranslations (u ++ s :: more) = beginsTranslations u := by
    obtain ⟨hresources, hprivate, htranslations⟩ := isNamed_of_mem_root root hroot s hs
    exact beginsTranslations_append_cons hresources hprivate htranslations u more
  have hshort (u : List (List Char)) (hu : u.length ≤ 1) : beginsTranslations u = false := by
    match u with
    | [] => rfl
    | [_] => rfl
  obtain ⟨first, others, hfirst⟩ :=
    List.exists_cons_of_ne_nil (Text.split_ne_nil (· = '/') root.toList)
  obtain ⟨before, hu⟩ := hu
  rcases List.append_eq_append_iff.1 hu with ⟨v, hv, rfl⟩ | ⟨v, -, hv⟩
  · rw [hfirst, List.cons_append, hstop v (hfirst ▸ List.mem_cons_self)]
    exact beginsTranslations_of_prefix h.translations hfront ⟨before, hv.symm⟩
  · rcases List.append_eq_append_iff.1 hv with ⟨w, -, hw⟩ | ⟨w, hw, rfl⟩
    · refine hshort u ?_
      have hlength := congrArg List.length hw
      rw [List.length_singleton, List.length_append] at hlength
      omega
    · cases w with
      | nil => exact hshort [package] (Nat.le_refl 1)
      | cons s w => exact hstop [] (hw ▸ List.mem_append_right v List.mem_cons_self) _

/-- No translations directory comes before that of the package. -/
theorem findAt?_translations (h : IsOutside base) {front : List (List Char)}
    (hfront : front <+: Path.segments base) {root : String} (hroot : root ∈ writableRoots)
    {package : List Char} (hpackage : '/' ∉ package) {rest : List (List Char)}
    (hrest : ∀ s ∈ rest, '/' ∉ s) :
    findAt? translations? (Path.spell (front ++ (Text.split (· = '/') root.toList ++
      (package :: (translationsNames ++ rest))))) =
        findAt? translations? (Path.spell (translationsNames ++ rest)) := by
  have hbefore : ∀ s ∈ front ++ (Text.split (· = '/') root.toList ++ [package]), '/' ∉ s :=
    List.forall_mem_append.2 ⟨fun s hs => Path.slash_not_mem_of_mem_segments (hfront.subset hs),
      List.forall_mem_append.2 ⟨fun s hs => Path.slash_not_mem_of_mem_split hs,
        by simpa using hpackage⟩⟩
  have hfound := findAt?_translations_below hbefore hrest
    fun u hu => h.beginsTranslations_eq_false hfront hroot hu
  simpa only [List.append_assoc, List.singleton_append] using hfound

/-- No package root comes before that of the package. -/
theorem findAt?_package (h : IsOutside base) {front : List (List Char)}
    (hfront : front <+: Path.segments base) {root : String} (hroot : root ∈ writableRoots)
    {rest : List (List Char)} (hrest : ∀ s ∈ rest, '/' ∉ s) :
    findAt? package? (Path.spell (front ++ (Text.split (· = '/') root.toList ++ rest))) =
      findAt? package? (Path.spell (Text.split (· = '/') root.toList ++ rest)) := by
  have hoffer : ∀ s ∈ front, '/' ∉ s :=
    fun s hs => Path.slash_not_mem_of_mem_segments (hfront.subset hs)
  refine findAt?_spell_append package?_of_ne hoffer ?_
  intro u hne hu
  rw [Option.eq_none_iff_forall_ne_some]
  intro package hpackage
  have hfree : ∀ s ∈ u ++ (Text.split (· = '/') root.toList ++ rest), '/' ∉ s :=
    List.forall_mem_append.2 ⟨fun s hs => hoffer s (hu.subset hs),
      List.forall_mem_append.2 ⟨fun s hs => Path.slash_not_mem_of_mem_split hs, hrest⟩⟩
  obtain ⟨other, hother, more, hmore⟩ := exists_root_of_package?_spell hfree hpackage
  have houtside {v : List (List Char)} (hv : Text.split (· = '/') other.toList ++ v = u) : False := by
    refine h.roots other hother ?_
    have hbelow : Text.split (· = '/') other.toList <+: u := ⟨v, hv⟩
    exact (hbelow.isInfix.trans hu.isInfix).trans hfront.isInfix
  rw [List.append_assoc] at hmore
  rcases List.append_eq_append_iff.1 hmore with ⟨v, hv, -⟩ | ⟨v, hv, hrest⟩
  · exact houtside hv.symm
  · cases v with
    | nil => exact houtside (v := []) (by simpa using hv)
    | cons s v =>
      -- then the root begins with a segment that other roots end with
      obtain ⟨first, others, hfirst⟩ :=
        List.exists_cons_of_ne_nil (Text.split_ne_nil (· = '/') root.toList)
      rw [hfirst, List.cons_append, List.cons_append, List.cons.injEq] at hrest
      refine tail_root_ne_head other hother root hroot s (by rw [hfirst, hrest.1]; rfl) ?_
      rw [hv, List.tail_append_of_ne_nil hne]
      simp

theorem isCatalogFile_of_spell {p : String} {segments : List (List Char)} {name : List Char}
    (hp : p.toList = Path.spell (segments ++ [name ++ ".xlf".toList]))
    (hfree : ∀ s ∈ segments ++ [name ++ ".xlf".toList], '/' ∉ s) (hname : name ≠ []) :
    isCatalogFile p = true := by
  have hlong : 4 < (name ++ ".xlf".toList).length := by
    have hfour : ".xlf".toList.length = 4 := rfl
    have hpositive := List.length_pos_iff.2 hname
    rw [List.length_append, hfour]
    omega
  have hfiller : Path.isFiller (name ++ ".xlf".toList) = false := by
    rw [Path.isFiller, Bool.or_eq_false_iff, decide_eq_false_iff_not, decide_eq_false_iff_not]
    constructor <;> intro heq <;> rw [heq] at hlong <;> exact absurd hlong (by decide)
  have hcomponent : Path.component (name ++ ".xlf".toList) =
      .name (String.ofList (name ++ ".xlf".toList)) := by
    rw [Path.component, if_neg]
    intro heq
    rw [heq] at hlong
    exact absurd hlong (by decide)
  have hsplit := Path.split_spell hfree
  rw [← hp] at hsplit
  have hfile : Path.fileName? p = some (String.ofList (name ++ ".xlf".toList)) := by
    rw [Path.fileName?, Path.components_of_split hsplit, Path.stepsOf_append,
      Path.stepsOf_singleton, hfiller, hcomponent]
    simp
  obtain ⟨c, rest, rfl⟩ := List.exists_cons_of_ne_nil hname
  have hcut : Text.cutAtLast? '.' (c :: rest ++ ".xlf".toList) = some (c :: rest, "xlf".toList) :=
    Text.cutAtLast?_append (c :: rest) (by decide)
  rw [isCatalogFile, Path.hasExtensionIgnoringCase, Path.extension?, hfile, Option.bind_some,
    String.toList_ofList, hcut]
  have hxlf : Text.equalIgnoringCase (String.ofList "xlf".toList) fileEnding = true := by
    decide
  exact hxlf

/-- The last segment of a source's path is not empty, and the ending of its file goes on from it. -/
theorem exists_split_sourcePath {source : String} (h : IsSourceName source) :
    ∃ front last, last ≠ [] ∧
      Text.split (· = '/') (sourcePath source ++ ".xlf".toList) = front ++ [last ++ ".xlf".toList] := by
  obtain ⟨front, c, hc⟩ := List.eq_nil_or_concat (sourcePath source) |>.resolve_left
    (sourcePath_ne_nil h)
  have hslash : c ≠ '/' := by
    rintro rfl
    have hlast : (sourcePath source).getLast? = some '/' := by simp [hc]
    rw [sourcePath, List.getLast?_map] at hlast
    obtain ⟨d, hd, heq⟩ := Option.map_eq_some_iff.1 hlast
    by_cases hdot : d = '.'
    · exact h.last (hdot ▸ hd)
    · rw [if_neg hdot] at heq
      exact h.slash (heq ▸ List.mem_of_getLast? hd)
  have hending : '/' ∉ c :: ".xlf".toList := by
    rw [List.mem_cons, not_or]
    exact ⟨fun heq => hslash heq.symm, by decide⟩
  obtain ⟨first, last, hsplit⟩ := List.eq_nil_or_concat (Text.split (· = '/') front) |>.resolve_left
    (Text.split_ne_nil _ _)
  refine ⟨first, last ++ [c], by simp, Path.split_of_spell ?_ ?_⟩
  · have hfree : ∀ s ∈ first ++ [last], '/' ∉ s := by
      intro s hs
      rw [← List.concat_eq_append, ← hsplit] at hs
      exact Path.slash_not_mem_of_mem_split hs
    rw [List.forall_mem_append, List.forall_mem_singleton] at hfree ⊢
    refine ⟨hfree.1, ?_⟩
    rw [List.append_assoc, List.mem_append, not_or]
    exact ⟨hfree.2, hending⟩
  · have hspell := Path.spell_split front
    rw [hsplit, List.concat_eq_append, Path.spell_append, Path.spell_cons, Path.spell_nil,
      List.append_nil] at hspell
    rw [hc, List.concat_eq_append, Path.spell_append, Path.spell_cons, Path.spell_nil,
      List.append_nil, ← List.cons_append, ← List.cons_append, ← hspell]
    simp

/-- The path of a new catalog in an existing directory of its package is that of a catalog file, and
stands for the locale, the package and the source that the catalog was made for. -/
theorem newPath?_reads_back (hbase : IsOutside base) (hpackage : IsSegment l.package)
    (hlocale : IsSegment l.locale)
    (hsource : (∃ written, normalizeSource written = l.source) ∨ ∃ p, foldSource p = l.source)
    (hbreak : '\n' ∉ l.source.toList) (hpath : newPath? isDirectory base [] l = some path) :
    isCatalogFile path = true ∧ Location.ofPath? path none = some l := by
  have hname : IsSourceName l.source := by
    rcases hsource with ⟨written, hwritten⟩ | ⟨p, hp⟩
    · exact hwritten ▸ isSourceName_normalizeSource written
    · exact hp ▸ isSourceName_foldSource p
  obtain ⟨front, hfront, root, hroot, htext⟩ :=
    toList_newPath? hbase.absolute hpackage hlocale hname hpath
  have hbelow : ∀ s ∈ l.locale.toList ::
      Text.split (· = '/') (sourcePath l.source ++ ".xlf".toList), '/' ∉ s :=
    List.forall_mem_cons.2 ⟨hlocale.slash, fun s hs => Path.slash_not_mem_of_mem_split hs⟩
  have hrelative : ∀ s ∈ relativeSegments l, '/' ∉ s :=
    List.forall_mem_append.2 ⟨by decide, hbelow⟩
  have hrest : ∀ s ∈ l.package.toList :: relativeSegments l, '/' ∉ s :=
    List.forall_mem_cons.2 ⟨hpackage.slash, hrelative⟩
  have hfree : ∀ s ∈ front ++ (Text.split (· = '/') root.toList ++
      (l.package.toList :: relativeSegments l)), '/' ∉ s :=
    List.forall_mem_append.2 ⟨fun s hs => Path.slash_not_mem_of_mem_segments (hfront.subset hs),
      List.forall_mem_append.2 ⟨fun s hs => Path.slash_not_mem_of_mem_split hs, hrest⟩⟩
  have hwritable : ∀ root ∈ writableRoots, root ∈ packageRoots := by decide
  constructor
  · obtain ⟨directories, last, hlast, hsplit⟩ := exists_split_sourcePath hname
    have hsegments : front ++ (Text.split (· = '/') root.toList ++
        (l.package.toList :: relativeSegments l)) =
          (front ++ (Text.split (· = '/') root.toList ++ (l.package.toList ::
            (translationsNames ++ (l.locale.toList :: directories))))) ++
              [last ++ ".xlf".toList] := by
      rw [relativeSegments, hsplit]
      simp only [List.append_assoc, List.cons_append]
    rw [hsegments] at htext hfree
    exact isCatalogFile_of_spell htext hfree hlast
  · have hslashes : Path.withSlashes path = path := Path.withSlashes_eq_self
      (backslash_not_mem_newPath? hbase.backslash hpackage hlocale hname hpath)
    refine ofPath?_eq_some.2 ⟨?_, String.ofList (sourcePath l.source), ?_, ?_⟩
    · have hsplit : Text.split (· = '/') (catalogPath l.locale l.source).toList =
          relativeSegments l :=
        Path.split_of_spell hrelative (toList_catalogPath hlocale hname)
      rw [packageOf?, hslashes, htext, findAt?_package hbase hfront hroot hrest, ← hsplit]
      exact findAt?_of_eq_some
        (package?_spell (hwritable root hroot) hpackage.slash hpackage.nonempty _)
    · rw [hslashes, htext, relativeSegments,
        findAt?_translations hbase hfront hroot hpackage.slash hbelow]
      refine findAt?_of_eq_some ?_
      rw [translations?_spell hlocale.slash (by simpa using hlocale.nonempty)
        (sourcePath_ne_nil hname) (not_mem_sourcePath (by decide) hbreak), String.ofList_toList]
    · exact hname.foldSource_slashes.symm

/-- A base that ends as the roots begin, a package that is called like a root, and a source with an
empty piece. -/
theorem newPath?_reads_back_dotted :
    let isDirectory := fun p => p == "/p/Resources/Packages/Packages/Sites/Packages"
    let l : Location := ⟨"de", "Packages", "Forms..Contact.xlf"⟩
    let path := "/p/Resources/Packages/Packages/Sites/Packages/" ++
      "Resources/Private/Translations/de/Forms//Contact/xlf.xlf"
    newPath? isDirectory "/p/Resources/Packages/" [] l = some path ∧
      isCatalogFile path = true ∧ Location.ofPath? path none = some l := by
  intro isDirectory l path
  have hbase : IsOutside "/p/Resources/Packages/" := by
    refine ⟨by decide, by decide, by decide, ?_⟩
    intro s hs
    rw [← List.mem_tails] at hs
    revert s
    decide
  have hpackage : IsSegment l.package := ⟨by decide, by decide, by decide⟩
  have hlocale : IsSegment l.locale := ⟨by decide, by decide, by decide⟩
  have hsource : normalizeSource (some " /Forms//Contact.xlf\\:x") = l.source := by
    decide
  have hpath : newPath? isDirectory "/p/Resources/Packages/" [] l = some path := by
    decide
  exact ⟨hpath, newPath?_reads_back hbase hpackage hlocale (.inl ⟨_, hsource⟩) (by decide) hpath⟩

end NewPath

end TranslationAudit.Catalog
