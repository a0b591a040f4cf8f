import TranslationAudit.Proofs.Catalog.NewPath

/-! # New catalogs in configured directories

With discovery paths all new catalogs lie below the first of them, whatever their package.

* `Catalog.IsUntranslated`: directories that lie in no translations directory.
* `Catalog.newPath?_configured`: the path of a new catalog has the locale and the source that the
  catalog was made for, and the package of the first discovery path.
* `Catalog.newPath?_shared`: two packages get one path, and a root gives no package of its own; what
  is not read back in the directory of the package.
-/

namespace TranslationAudit.Catalog

/-- Absolute directories that lie in no translations directory. -/
structure IsUntranslated (directory : String) : Prop where
  absolute : Path.isAbsolute directory = true
  backslash : '\\' ∉ directory.toList
  translations : ∀ s, s <:+ Path.segments directory → beginsTranslations s = false

/-- Locations with a locale of one segment and a source name without a line break. -/
structure Location.IsWritable (l : Location) : Prop where
  locale : IsSegment l.locale
  source : (∃ written, normalizeSource written = l.source) ∨ ∃ p, foldSource p = l.source
  unbroken : '\n' ∉ l.source.toList

theorem Location.IsWritable.isSourceName {l : Location} (h : l.IsWritable) :
    IsSourceName l.source := by
  rcases h.source with ⟨written, hwritten⟩ | ⟨p, hp⟩
  · exact hwritten ▸ isSourceName_normalizeSource written
  · exact hp ▸ isSourceName_foldSource p

/-! ## The path of a catalog below a directory -/

section Directory

variable {directory : String} {l : Location}

theorem relativeSegments_free (h : l.IsWritable) : ∀ s ∈ relativeSegments l, '/' ∉ s :=
  List.forall_mem_append.2 ⟨by decide, List.forall_mem_cons.2
    ⟨h.locale.slash, fun s hs => Path.slash_not_mem_of_mem_split hs⟩⟩

theorem exists_catalogPath_eq (h : l.IsWritable) :
    ∃ rest, catalogPath l.locale l.source = "Resources/" ++ rest := by
  have hpath := toList_catalogPath h.locale h.isSourceName
  obtain ⟨rest, hrest⟩ : ∃ rest, (catalogPath l.locale l.source).toList =
      "Resources/".toList ++ rest := ⟨_, (List.cons.inj hpath).2⟩
  refine ⟨String.ofList rest, String.toList_inj.1 ?_⟩
  rw [hrest, String.toList_append]
  simp

/-- The segments of the path: some of its directory and those below it. -/
theorem toList_join_catalogPath (hdirectory : Path.isAbsolute directory = true)
    (h : l.IsWritable) :
    ∃ front, front <+: Path.segments directory ∧
      (Path.join directory (catalogPath l.locale l.source)).toList =
        Path.spell (front ++ relativeSegments l) := by
  obtain ⟨front, hfront, hjoin⟩ :=
    Path.exists_toList_join hdirectory (isAbsolute_catalogPath h.locale h.isSourceName)
  refine ⟨front, hfront, ?_⟩
  rw [hjoin, Path.split_of_spell (relativeSegments_free h)
    (toList_catalogPath h.locale h.isSourceName), relativeSegments]

theorem isCatalogFile_join (hdirectory : Path.isAbsolute directory = true) (h : l.IsWritable) :
    isCatalogFile (Path.join directory (catalogPath l.locale l.source)) = true := by
  obtain ⟨front, hfront, htext⟩ := toList_join_catalogPath hdirectory h
  obtain ⟨directories, last, hlast, hsplit⟩ := exists_split_sourcePath h.isSourceName
  have hfree : ∀ s ∈ front ++ relativeSegments l, '/' ∉ s :=
    List.forall_mem_append.2 ⟨fun s hs => Path.slash_not_mem_of_mem_segments (hfront.subset hs),
      relativeSegments_free h⟩
  have hsegments : front ++ relativeSegments l =
      (front ++ (translationsNames ++ (l.locale.toList :: directories))) ++
        [last ++ ".xlf".toList] := by
    rw [relativeSegments, hsplit]
    simp only [List.append_assoc, List.cons_append]
  rw [hsegments] at htext hfree
  exact isCatalogFile_of_spell htext hfree hlast

/-- The locale and the source are read back. -/
theorem findAt?_translations_join (hdirectory : IsUntranslated directory) (h : l.IsWritable) :
    findAt? translations?
        (Path.withSlashes (Path.join directory (catalogPath l.locale l.source))).toList =
      some (l.locale, String.ofList (sourcePath l.source)) := by
  obtain ⟨front, hfront, htext⟩ := toList_join_catalogPath hdirectory.absolute h
  have hslashes := Path.withSlashes_eq_self (Path.not_mem_join (by decide) hdirectory.backslash
    (backslash_not_mem_catalogPath h.locale h.isSourceName))
  have hoffer : ∀ s ∈ front, '/' ∉ s :=
    fun s hs => Path.slash_not_mem_of_mem_segments (hfront.subset hs)
  have hbelow : ∀ s ∈ l.locale.toList ::
      Text.split (· = '/') (sourcePath l.source ++ ".xlf".toList), '/' ∉ s :=
    List.forall_mem_cons.2 ⟨h.locale.slash, fun s hs => Path.slash_not_mem_of_mem_split hs⟩
  have hbefore (u : List (List Char)) (hu : u <:+ front) : beginsTranslations u = false :=
    beginsTranslations_of_prefix hdirectory.translations hfront hu
  rw [hslashes, htext, relativeSegments, findAt?_translations_below hoffer hbelow hbefore]
  refine findAt?_of_eq_some ?_
  rw [translations?_spell h.locale.slash (by simpa using h.locale.nonempty)
    (sourcePath_ne_nil h.isSourceName) (not_mem_sourcePath (by decide) h.unbroken),
    String.ofList_toList]

/-- The path stands for the locale and the source, in the package that is recognised. -/
theorem ofPath?_join (hdirectory : IsUntranslated directory) (h : l.IsWritable) :
    Location.ofPath? (Path.join directory (catalogPath l.locale l.source)) none =
      (packageOf? (Path.join directory (catalogPath l.locale l.source))).map fun package =>
        { l with package } := by
  have hfound := findAt?_translations_join hdirectory h
  rw [Location.ofPath?]
  simp only [hfound, Option.none_or, sourcePath, h.isSourceName.foldSource_slashes]
  rfl

/-- The package is that of the directory. -/
theorem packageOf?_join (h : l.IsWritable) {package : String}
    (hpackage : packageOf? (Path.join directory "Resources/") = some package) :
    packageOf? (Path.join directory (catalogPath l.locale l.source)) = some package := by
  obtain ⟨rest, hrest⟩ := exists_catalogPath_eq h
  have hjoin : Path.join directory ("Resources/" ++ rest) =
      Path.join directory "Resources/" ++ rest := by
    have habsolute : Path.isAbsolute ("Resources/" ++ rest) = false := by simp [Path.isAbsolute]
    have hresources : Path.isAbsolute "Resources/" = false := by decide
    unfold Path.join
    rw [habsolute, hresources]
    split
    · rfl
    · split <;> simp only [String.append_assoc]
  unfold packageOf? Path.withSlashes at hpackage ⊢
  rw [String.toList_ofList] at hpackage ⊢
  rw [hrest, hjoin, String.toList_append, List.map_append]
  exact findAt?_append hpackage _

end Directory

/-! ## The directory of a package -/

section Package

variable {base root package : String}

theorem toList_package (root package : String) :
    (root ++ "/" ++ package).toList = root.toList ++ '/' :: package.toList := by
  simp

theorem isOpen_package (root : String) (hpackage : IsSegment package) :
    Path.IsOpen (root ++ "/" ++ package) := by
  obtain ⟨c, hc, hslash⟩ := hpackage.isOpen
  refine ⟨c, ?_, hslash⟩
  rw [toList_package, List.getLast?_append, List.getLast?_cons, hc]
  rfl

/-- The segments of the directory of a package: some of its base, the root and the package. -/
theorem toList_join_package (hbase : Path.isAbsolute base = true) (hroot : root ∈ writableRoots)
    (hpackage : IsSegment package) : ∃ front, front <+: Path.segments base ∧
      (Path.join base (root ++ "/" ++ package)).toList =
        Path.spell (front ++ (Text.split (· = '/') root.toList ++ [package.toList])) := by
  have hroots : ∀ root ∈ writableRoots, ∃ c s, root.toList = c :: s ∧ c ≠ '/' := by
    intro root hroot
    have hhead : ∀ root ∈ writableRoots, root.toList.head?.any (· ≠ '/') = true := by decide
    obtain ⟨c, hc, hslash⟩ := (Option.any_eq_true _ _).1 (hhead root hroot)
    obtain ⟨s, hs⟩ := List.head?_eq_some_iff.1 hc
    exact ⟨c, s, hs, by simpa using hslash⟩
  obtain ⟨c, s, hs, hslash⟩ := hroots root hroot
  have hrelative : Path.isAbsolute (root ++ "/" ++ package) = false := by
    rw [Path.isAbsolute, toList_package, hs]
    simpa using hslash
  obtain ⟨front, hfront, hjoin⟩ := Path.exists_toList_join hbase hrelative
  refine ⟨front, hfront, ?_⟩
  rw [hjoin, toList_package, Text.split_append_cons (by simp),
    Path.split_of_slash_not_mem hpackage.slash]

theorem backslash_not_mem_join_package (hbase : '\\' ∉ base.toList) (hroot : root ∈ writableRoots)
    (hpackage : IsSegment package) :
    '\\' ∉ (Path.join base (root ++ "/" ++ package)).toList := by
  have hroots : ∀ root ∈ writableRoots, '\\' ∉ root.toList := by decide
  refine Path.not_mem_join (by decide) hbase ?_
  rw [toList_package, List.mem_append, List.mem_cons, not_or, not_or]
  exact ⟨hroots root hroot, by decide, hpackage.backslash⟩

theorem IsOutside.isUntranslated_package (hbase : IsOutside base) (hroot : root ∈ writableRoots)
    (hpackage : IsSegment package) :
    IsUntranslated (Path.join base (root ++ "/" ++ package)) := by
  obtain ⟨front, hfront, hjoin⟩ := toList_join_package hbase.absolute hroot hpackage
  have hfree : ∀ s ∈ front ++ (Text.split (· = '/') root.toList ++ [package.toList]), '/' ∉ s :=
    List.forall_mem_append.2 ⟨fun s hs => Path.slash_not_mem_of_mem_segments (hfront.subset hs),
      List.forall_mem_append.2 ⟨fun s hs => Path.slash_not_mem_of_mem_split hs,
        by simpa using hpackage.slash⟩⟩
  refine ⟨?_, backslash_not_mem_join_package hbase.backslash hroot hpackage, ?_⟩
  · obtain ⟨first, others, hfirst⟩ :=
      List.exists_cons_of_ne_nil (l := front ++ (Text.split (· = '/') root.toList ++
        [package.toList])) (by simp)
    rw [Path.isAbsolute, hjoin, hfirst]
    simp
  · intro s hs
    rw [Path.segments, hjoin, Path.split_spell hfree, List.tail_cons] at hs
    exact hbase.beginsTranslations_eq_false hfront hroot hs

/-- The directory of a package outside is recognised as such. -/
theorem packageOf?_package (hbase : IsOutside base) (hroot : root ∈ writableRoots)
    (hpackage : IsSegment package) :
    packageOf? (Path.join (Path.join base (root ++ "/" ++ package)) "Resources/") =
      some package := by
  have hroots : ∀ root ∈ writableRoots, root ∈ packageRoots := by decide
  obtain ⟨front, hfront, hjoin⟩ := toList_join_package hbase.absolute hroot hpackage
  have hopen := (isOpen_package root hpackage).isOpen_join base
  have hall := hopen.toList_join (q := "Resources/") (by decide) hjoin
  have hslashes := Path.not_mem_join (b := "Resources/") (by decide)
    (backslash_not_mem_join_package hbase.backslash hroot hpackage) (by decide)
  have hrest : ∀ s ∈ package.toList :: Text.split (· = '/') "Resources/".toList, '/' ∉ s :=
    List.forall_mem_cons.2 ⟨hpackage.slash, fun s hs => Path.slash_not_mem_of_mem_split hs⟩
  rw [packageOf?, Path.withSlashes_eq_self hslashes, hall, List.append_assoc, List.append_assoc,
    List.singleton_append, findAt?_package hbase hfront hroot hrest]
  exact findAt?_of_eq_some
    (package?_spell (hroots root hroot) hpackage.slash hpackage.nonempty _)

end Package

/-! ## The first discovery path -/

theorem newPath?_cons (isDirectory : String → Bool) (base first : String) (others : List String)
    (l : Location) : newPath? isDirectory base (first :: others) l =
      some (Path.join (Path.join base first) (catalogPath l.locale l.source)) := rfl

/-- With discovery paths a new catalog lies below the first of them. Its path is that of a catalog
file and stands for the locale and the source that the catalog was made for, in the package that the
first discovery path stands for. Catalogs share a path if they share locale and source. -/
theorem newPath?_configured (isDirectory : String → Bool) {base first : String}
    (others : List String) (hfirst : IsUntranslated (Path.join base first)) {l : Location}
    (hl : l.IsWritable) :
    ∃ path, newPath? isDirectory base (first :: others) l = some path ∧
      isCatalogFile path = true ∧
      Location.ofPath? path none = (packageOf? path).map (fun package => { l with package }) ∧
      (∀ package, packageOf? (Path.join (Path.join base first) "Resources/") = some package →
        Location.ofPath? path none = some { l with package }) ∧
      (IsOutside base → ∀ root ∈ writableRoots, ∀ package, IsSegment package →
        first = root ++ "/" ++ package → Location.ofPath? path none = some { l with package }) ∧
      ∀ l' : Location, l'.IsWritable →
        (newPath? isDirectory base (first :: others) l' = some path ↔
          l'.locale = l.locale ∧ l'.source = l.source) := by
  have hread {package : String}
      (hpackage : packageOf? (Path.join (Path.join base first) "Resources/") = some package) :
      Location.ofPath? (Path.join (Path.join base first) (catalogPath l.locale l.source)) none =
        some { l with package } := by
    rw [ofPath?_join hfirst hl, packageOf?_join hl hpackage]
    rfl
  refine ⟨_, newPath?_cons isDirectory base first others l, isCatalogFile_join hfirst.absolute hl,
    ofPath?_join hfirst hl, fun package => hread, ?_, ?_⟩
  · rintro hbase root hroot package hpackage rfl
    exact hread (packageOf?_package hbase hroot hpackage)
  · intro l' hl'
    rw [newPath?_cons, Option.some.injEq]
    constructor
    · intro heq
      have hfound := findAt?_translations_join hfirst hl'
      rw [heq, findAt?_translations_join hfirst hl] at hfound
      obtain ⟨hlocale, hsource⟩ := Prod.mk.inj (Option.some.inj hfound)
      have hfolded := congrArg foldSource hsource
      rw [sourcePath, sourcePath, hl.isSourceName.foldSource_slashes,
        hl'.isSourceName.foldSource_slashes] at hfolded
      exact ⟨hlocale.symm, hfolded.symm⟩
    · rintro ⟨hlocale, hsource⟩
      rw [hlocale, hsource]

/-- The catalog of a package is read back if the first discovery path is its directory, and shares
its path with that of another package. -/
theorem newPath?_configured_first :
    let paths := ["DistributionPackages/A", "DistributionPackages/B"]
    let path := "/p/DistributionPackages/A/Resources/Private/Translations/de/Forms/Contact.xlf"
    IsUntranslated (Path.join "/p" "DistributionPackages/A") ∧
      (⟨"de", "A", "Forms.Contact"⟩ : Location).IsWritable ∧ IsOutside "/p" ∧
      Location.ofPath? path none = some ⟨"de", "A", "Forms.Contact"⟩ ∧
      newPath? (fun _ => true) "/p" paths ⟨"de", "B", "Forms.Contact"⟩ = some path := by
  intro paths path
  have hbase : IsOutside "/p" := by
    refine ⟨by decide, by decide, by decide, ?_⟩
    intro s hs
    rw [← List.mem_tails] at hs
    revert s
    decide
  have hpackage : IsSegment "A" := ⟨by decide, by decide, by decide⟩
  have hroot : "DistributionPackages" ∈ writableRoots := by decide
  have hfirst : IsUntranslated (Path.join "/p" "DistributionPackages/A") :=
    hbase.isUntranslated_package hroot hpackage
  have hsource : normalizeSource (some "Forms/Contact") = "Forms.Contact" := by decide
  have hlocale : IsSegment "de" := ⟨by decide, by decide, by decide⟩
  have hbreak : '\n' ∉ "Forms.Contact".toList := by decide
  have hlocation (package : String) : (⟨"de", package, "Forms.Contact"⟩ : Location).IsWritable :=
    ⟨hlocale, .inl ⟨_, hsource⟩, hbreak⟩
  obtain ⟨made, hmade, -, -, -, hread, hshared⟩ := newPath?_configured (fun _ => true)
    ["DistributionPackages/B"] hfirst (hlocation "A")
  obtain rfl : path = made := by
    have hpath : newPath? (fun _ => true) "/p" paths ⟨"de", "A", "Forms.Contact"⟩ = some path := by
      decide
    exact Option.some.inj (hpath.symm.trans hmade)
  exact ⟨hfirst, hlocation "A", hbase, hread hbase _ hroot "A" hpackage rfl,
    (hshared ⟨"de", "B", "Forms.Contact"⟩ (hlocation "B")).2 ⟨rfl, rfl⟩⟩

/-- Two packages share a path that is read back as one of them, and below a root a catalog is read
back as that of another package. In the directory of the package, too, a locale of two segments, a
source with a line break and a directory among the translations are not read back. -/
theorem newPath?_shared :
    let made (first : String) (others : List String) (l : Location) :=
      newPath? (fun _ => true) "/p" (first :: others) l
    let read (path : Option String) := path.bind (Location.ofPath? · none)
    let packages := ["DistributionPackages/B"]
    let among := "DistributionPackages/A/Resources/Private/Translations/x"
    (made "DistributionPackages/A" packages ⟨"de", "B", "Main"⟩ =
        made "DistributionPackages/A" packages ⟨"de", "A", "Main"⟩ ∧
      read (made "DistributionPackages/A" packages ⟨"de", "B", "Main"⟩) =
        some ⟨"de", "A", "Main"⟩) ∧
    read (made "DistributionPackages" [] ⟨"de", "B", "Main"⟩) = some ⟨"de", "Resources", "Main"⟩ ∧
    read (made "DistributionPackages/A" [] ⟨"de/AT", "A", "Main"⟩) = some ⟨"de", "A", "AT.Main"⟩ ∧
    (normalizeSource (some "a\nb") = "a\nb" ∧
      read (made "DistributionPackages/A" [] ⟨"de", "A", "a\nb"⟩) = none) ∧
    read (made among ["DistributionPackages/A"] ⟨"de", "A", "Main"⟩) =
      some ⟨"x", "A", "Resources.Private.Translations.de.Main"⟩ := by
  decide +kernel

end TranslationAudit.Catalog
