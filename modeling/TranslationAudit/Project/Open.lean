import TranslationAudit.Catalog.Build
import TranslationAudit.Catalog.Writer
import TranslationAudit.Collect
import TranslationAudit.Project.Discovery
import TranslationAudit.Project.Error

/-! # Projects

* `findConfig`, `loadConfig`: the configuration of a directory, which is looked for in the
  directories above it too, up to the first that holds a repository.
* `Project`: the settings and the files of a run.
* `Project.ofOptions`: the project that options and configuration describe; options win.
-/

namespace TranslationAudit

namespace Project

def configName : String := ".l10nguy.json"

/-- The first configuration file in directories, none of which above a repository. -/
def findConfigIn (tree : FileTree) : List String → Option String
  | [] => none
  | directory :: above =>
    let file := Path.join directory configName
    if tree.exists? file then some file
    else if tree.exists? (Path.join directory ".git") then none
    else findConfigIn tree above

def findConfig (tree : FileTree) (directory : String) : Option String :=
  findConfigIn tree (Path.ancestors directory)

def readConfig (tree : FileTree) (path : String) : Except Error Config :=
  match tree.read path with
  | .error cause => .error (.configUnreadable path cause)
  | .ok text =>
    match Config.parse text with
    | .ok c => .ok c
    | .error (.malformed cause) => .error (.configMalformed path cause)
    | .error (.invalidPattern field pattern cause) => .error (.invalidPattern field pattern cause)

/-- The configuration for a directory, with its file if there is one. -/
def loadConfig (tree : FileTree) (directory : String) : Except Error (Config × Option String) :=
  match findConfig tree directory with
  | none => .ok ({}, none)
  | some path => (readConfig tree path).map fun c => (c, some path)

/-- The options that all commands share. -/
structure Options where
  root : Option String := none
  package : Option String := none
  source : Option String := none
  paths : List String := []
  locales : List String := []
  format : Option OutputFormat := none
  verbose : Bool := false
deriving DecidableEq, Inhabited

/-- Where a run takes place. -/
structure Environment where
  tree : FileTree
  /-- The directory from which relative paths are taken. -/
  workingDirectory : String
  /-- The time that generated texts are given. -/
  now : String
  /-- What becomes of sums that are no words, which goes by how the program was built. -/
  overflow : Translation.Checked.Overflow

end Project

/-- The settings and the files of a run. -/
structure Project where
  config : Config
  /-- The directory of the project. -/
  base : String
  filters : Catalog.Filters
  /-- Remarks about how the project was found. -/
  notes : List String
  sourceFiles : List String
  catalogFiles : List String

namespace Project

def overrideConfig (o : Options) (c : Config) : Config :=
  let locales := Text.items o.locales
  { c with
    paths := if o.paths.isEmpty then c.paths else o.paths
    locales := if locales.isEmpty then c.locales else locales
    format := o.format.getD c.format }

def noConfigNote : String := "Note: No .l10nguy.json found, using default configuration"

/-- The project that options describe. Without a directory among the options it is that of the
configuration file. -/
def ofOptions (env : Environment) (o : Options) : Except Error Project :=
  let start := (o.root.map (Path.join env.workingDirectory)).getD env.workingDirectory
  (loadConfig env.tree start).map fun (c, file) =>
    let base :=
      if o.root.isSome then start else (file.bind Path.parent?).getD env.workingDirectory
    let config := overrideConfig o c
    let filters : Catalog.Filters := ⟨config.locales, o.package.or config.defaultPackage, o.source⟩
    let roots := discoveryRoots base config.paths filters.package
    { config, base, filters
      notes := if o.verbose && file.isNone then [noConfigNote] else []
      sourceFiles := scanFiles env.tree base roots config.includes config.excludes
        fun p => (sourceFormat? p).isSome
      catalogFiles := scanFiles env.tree base roots [] config.excludes Catalog.isCatalogFile }

/-- The references in a file. A file that is not there or is no text has none. -/
def referencesIn? (tree : FileTree) (file : String) : Option (List Reference) :=
  match sourceFormat? file, tree.read file with
  | some format, .ok text => collectReferences? format file text
  | _, _ => some []

/-- The references of a project, unless the program stops in one of its files. -/
def references? (p : Project) (tree : FileTree) : Option ReferenceIndex :=
  (p.sourceFiles.mapM (referencesIn? tree)).map fun found => .ofReferences found.flatten

def catalogs (p : Project) (tree : FileTree) : Catalog.Index :=
  let loaded := Catalog.loadCatalogs (Catalog.Document.load tree) p.filters p.catalogFiles
  Catalog.buildIndex p.filters (.ofCatalogs loaded p.config.fallbackLocales) loaded

def idPattern (pattern : String) : Except Error Glob :=
  match Glob.parse pattern with
  | .ok g => .ok g
  | .error cause => .error (.invalidPattern "--id" pattern cause)

/-- What is compared in a project, for identifiers that patterns select. -/
def scope (p : Project) (idPatterns : List String) : Except Error Scope :=
  (idPatterns.mapM idPattern).map fun idPatterns =>
    ⟨p.filters.locales, p.filters.package, p.filters.source, idPatterns⟩

def layout (p : Project) : Catalog.Layout := ⟨p.config.tabWidth, p.config.orderById⟩

def needsReview : String := "needs-review"

def writerSettings (p : Project) (dryRun review : Bool) : Catalog.WriterSettings where
  layout := p.layout
  state := .ofTexts (if p.config.setNeedsReview && review then some needsReview else none)
    p.config.newStateQualifier
  generatedState := .ofTexts p.config.generation.newState p.config.generation.newStateQualifier
  generatedNotes := p.config.generation.noteEnabled
  dryRun

def relative (p : Project) (path : String) : String := Path.relativeTo p.base path

end Project

end TranslationAudit
