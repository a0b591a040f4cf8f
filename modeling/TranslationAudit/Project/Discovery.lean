import TranslationAudit.Catalog.Location
import TranslationAudit.FileTree
import TranslationAudit.Glob

/-! # Where a project is searched

* `discoveryRoots`: the directories in which source files and catalogs are looked for.
* `scanFiles`: the files in them that patterns let through.
-/

namespace TranslationAudit.Project

def packagesDirectory : String := "DistributionPackages"

/-- The directories to search. Without configured paths these are the packages of the project, or
the one that is asked for. -/
def discoveryRoots (base : String) (paths : List String) (package : Option String) : List String :=
  if paths.isEmpty then
    let packages := Path.join base packagesDirectory
    [(package.map (Path.join packages)).getD packages]
  else paths.map (Path.join base)

/-- Whether patterns let a file through, which go by its path within the project. A file is left out
if an excluding pattern fits it, or if there are including patterns and none fits it. -/
def isSelected (base : String) (includes excludes : List Glob) (file : String) : Bool :=
  let path := Path.relativeTo base file
  !excludes.any (·.accepts path) && (includes.isEmpty || includes.any (·.accepts path))

/-- A list without repetitions of a path right after itself. -/
def dropRepeated : List String → List String
  | [] => []
  | [p] => [p]
  | p :: q :: r =>
    if Path.components p = Path.components q then dropRepeated (p :: r)
    else p :: dropRepeated (q :: r)
termination_by ps => ps.length

/-- The accepted files in directories that patterns let through, ordered by path, each once. Texts
that are no patterns are ignored. -/
def scanFiles (tree : FileTree) (base : String) (roots includes excludes : List String)
    (accept : String → Bool) : List String :=
  let includes := Glob.valid includes
  let excludes := Glob.valid excludes
  let found := (roots.flatMap tree.walk).filter fun p =>
    accept p && isSelected base includes excludes p
  dropRepeated (found.mergeSort fun a b => Path.comparePaths a b != .gt)

end TranslationAudit.Project
