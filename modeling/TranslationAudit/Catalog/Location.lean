import TranslationAudit.Message.Resolve
import TranslationAudit.Path

/-! # Where catalogs lie

A catalog lies at `Resources/Private/Translations/<locale>/<source>.xlf` in the directory of its
package, which lies in one of the package roots.

* `Location`: locale, package and source of a catalog.
* `Location.ofPath?`: the location that a path stands for.
* `catalogPath`: the path of a catalog within its package.
-/

namespace TranslationAudit.Catalog

/-- Locale, package and source of a catalog. -/
structure Location where
  locale : String
  package : String
  source : String
deriving DecidableEq, Inhabited

instance : Ord Location where
  compare a b :=
    (compare a.locale b.locale).then
      ((compare a.package b.package).then (compare a.source b.source))

/-! ## Reading paths -/

/-- What follows a text that differs from a lower case pattern in the case of letters only. -/
def afterIgnoringCase? : List Char → List Char → Option (List Char)
  | [], s => some s
  | _ :: _, [] => none
  | p :: ps, c :: s => if Text.sameLetter p c then afterIgnoringCase? ps s else none

/-- The first value that a function finds at a place of a text. -/
def findAt? {α : Type} (f : List Char → Option α) : List Char → Option α
  | [] => f []
  | c :: r =>
    match f (c :: r) with
    | some a => some a
    | none => findAt? f r

def fileEnding : String := "xlf"

/-- The text before `.xlf`, in any case, at the end of a text. -/
def beforeEnding? (s : List Char) : Option (List Char) :=
  let body := s.take (s.length - 4)
  match afterIgnoringCase? ".xlf".toList (s.drop (s.length - 4)) with
  | some [] => some body
  | _ => none

/-- Locale and source path of a path that begins at the translations directory. -/
def translations? (s : List Char) : Option (String × String) :=
  match afterIgnoringCase? "/resources/private/translations/".toList s with
  | none => none
  | some rest =>
    match Text.cutAt? '/' rest with
    | none => none
    | some (locale, file) =>
      match beforeEnding? file with
      | none => none
      | some source =>
        if locale.isEmpty || source.isEmpty || source.contains '\n' then none
        else some (String.ofList locale, String.ofList source)

def packageRoots : List String :=
  ["DistributionPackages", "Packages/Application", "Packages/Framework", "Packages/Plugins",
   "Packages/Sites"]

def package? (s : List Char) : Option String :=
  packageRoots.findSome? fun root =>
    (Text.after? ("/" ++ root ++ "/").toList s).bind fun rest =>
      (Text.cutAt? '/' rest).bind fun (package, _) =>
        if package.isEmpty then none else some (String.ofList package)

/-- The location that a path stands for. A package that is given replaces the one of the path. -/
def Location.ofPath? (path : String) (package : Option String) : Option Location :=
  let s := (Path.withSlashes path).toList
  match findAt? translations? s with
  | none => none
  | some (locale, source) =>
    (package.or (findAt? package? s)).map fun package =>
      ⟨locale, package, foldSource source⟩

def isCatalogFile (path : String) : Bool := Path.hasExtensionIgnoringCase path fileEnding

/-! ## New paths -/

def catalogPath (locale source : String) : String :=
  let file := String.ofList (source.toList.map fun c => if c = '.' then '/' else c) ++ ".xlf"
  Path.join (Path.join "Resources/Private/Translations" locale) file

/-- The package roots in which new catalogs are made, the preferred one first. -/
def writableRoots : List String :=
  ["DistributionPackages", "Packages/Application", "Packages/Sites"]

/-- The path for a new catalog. With discovery paths the first of them is the package's directory;
otherwise it is the first directory of the package that exists. -/
def newPath? (isDirectory : String → Bool) (base : String) (paths : List String)
    (location : Location) : Option String :=
  let relative := catalogPath location.locale location.source
  match paths with
  | first :: _ => some (Path.join (Path.join base first) relative)
  | [] =>
    let directories := writableRoots.map fun root =>
      Path.join (Path.join base root) location.package
    (directories.find? isDirectory).map fun directory => Path.join directory relative

end TranslationAudit.Catalog
