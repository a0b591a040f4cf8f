import TranslationAudit.Glob
import TranslationAudit.Json.Read
import TranslationAudit.Json.Value
import TranslationAudit.Text.Items

/-! # The configuration of a project

* `Config`: the settings of a project, with their defaults.
* `Config.toJson`: the text of a configuration file.
* `Config.parse`: reads a configuration file and checks its patterns.
-/

namespace TranslationAudit

/-- How a report is written. -/
inductive OutputFormat where
  | table
  | json
deriving DecidableEq, Inhabited

namespace OutputFormat

def name : OutputFormat → String
  | .table => "table"
  | .json => "json"

def known : List (String × OutputFormat) := [("table", .table), ("json", .json)]

def ofName? (s : String) : Option OutputFormat := known.lookup s

end OutputFormat

/-- The exit codes of a run. -/
structure ExitCodes where
  success : Nat := 0
  missing : Nat := 5
  unused : Nat := 6
  failure : Nat := 7
  dirty : Nat := 7
deriving DecidableEq, Inhabited

/-- The settings for generated translations. -/
structure GenerationConfig where
  provider : Option String := none
  model : Option String := none
  newState : Option String := none
  newStateQualifier : Option String := none
  noteEnabled : Bool := true
  contextWindowLines : Nat := 5
  systemPrompt : String := ""
deriving DecidableEq, Inhabited

/-- The settings of a project. -/
structure Config where
  paths : List String := []
  locales : List String := []
  fallbackLocales : List String := []
  defaultPackage : Option String := none
  format : OutputFormat := .table
  includes : List String := []
  excludes : List String := ["**/node_modules/**", "**/vendor/**", "**/.git/**"]
  tabWidth : Nat := 2
  orderById : Bool := false
  setNeedsReview : Bool := true
  newStateQualifier : Option String := none
  exitCodes : ExitCodes := {}
  generation : GenerationConfig := {}
deriving DecidableEq, Inhabited

/-! ## Writing -/

def ExitCodes.toJson (c : ExitCodes) : Json :=
  .object [("success", .number c.success), ("missing", .number c.missing),
    ("unused", .number c.unused), ("failure", .number c.failure), ("dirty", .number c.dirty)]

def GenerationConfig.toJson (c : GenerationConfig) : Json :=
  .object [("provider", .ofOption c.provider), ("model", .ofOption c.model),
    ("newState", .ofOption c.newState), ("newStateQualifier", .ofOption c.newStateQualifier),
    ("noteEnabled", .bool c.noteEnabled), ("contextWindowLines", .number c.contextWindowLines),
    ("systemPrompt", .string c.systemPrompt)]

def Config.toJson (c : Config) : Json :=
  .object [("paths", .strings c.paths), ("locales", .strings c.locales),
    ("fallbackLocales", .strings c.fallbackLocales), ("defaultPackage", .ofOption c.defaultPackage),
    ("format", .string c.format.name), ("includes", .strings c.includes),
    ("excludes", .strings c.excludes), ("tabWidth", .number c.tabWidth),
    ("orderById", .bool c.orderById), ("setNeedsReview", .bool c.setNeedsReview),
    ("newStateQualifier", .ofOption c.newStateQualifier), ("exitCodes", c.exitCodes.toJson),
    ("llm", c.generation.toJson)]

/-! ## Reading -/

open Json.Reader

def readCode : Json.Reader Nat := readNatural "u8" UInt8.size

/-- Reads a count. -/
def readCount : Json.Reader Nat := readNatural "usize" UInt64.size

def readTexts : Json.Reader (List String) := readList readString

def readText? : Json.Reader (Option String) := readOption readString

def ExitCodes.read : Json.Reader ExitCodes :=
  readStruct "ExitCodes"
    [member "success" readCode fun v c => { c with success := v },
     member "missing" readCode fun v c => { c with missing := v },
     member "unused" readCode fun v c => { c with unused := v },
     member "failure" readCode fun v c => { c with failure := v },
     member "dirty" readCode fun v c => { c with dirty := v }] {}

def GenerationConfig.read : Json.Reader GenerationConfig :=
  readStruct "LlmConfig"
    [member "provider" readText? fun v c => { c with provider := v },
     member "model" readText? fun v c => { c with model := v },
     member "newState" readText? fun v c => { c with newState := v },
     member "newStateQualifier" readText? fun v c => { c with newStateQualifier := v },
     member "noteEnabled" readBool fun v c => { c with noteEnabled := v },
     member "contextWindowLines" readCount fun v c => { c with contextWindowLines := v },
     member "systemPrompt" readString fun v c => { c with systemPrompt := v }] {}

def Config.read : Json.Reader Config :=
  readStruct "Config"
    [member "paths" readTexts fun v c => { c with paths := v },
     member "locales" readTexts fun v c => { c with locales := v },
     member "fallbackLocales" readTexts fun v c => { c with fallbackLocales := v },
     member "defaultPackage" readText? fun v c => { c with defaultPackage := v },
     member "format" (readVariant OutputFormat.known) fun v c => { c with format := v },
     member "includes" readTexts fun v c => { c with includes := v },
     member "excludes" readTexts fun v c => { c with excludes := v },
     member "tabWidth" readCount fun v c => { c with tabWidth := v },
     member "orderById" readBool fun v c => { c with orderById := v },
     member "setNeedsReview" readBool fun v c => { c with setNeedsReview := v },
     member "newStateQualifier" readText? fun v c => { c with newStateQualifier := v },
     member "exitCodes" ExitCodes.read fun v c => { c with exitCodes := v },
     member "llm" GenerationConfig.read fun v c => { c with generation := v }] {}

namespace Config

/-- Why a configuration is refused. -/
inductive Error where
  | malformed (cause : Json.Error)
  | invalidPattern (field pattern : String) (cause : Glob.Error)
deriving DecidableEq

/-- The first pattern of a field that is none. -/
def checkPatterns (field : String) (patterns : List String) : Except Error Unit :=
  patterns.forM fun p =>
    match Glob.parse p with
    | .ok _ => .ok ()
    | .error e => .error (.invalidPattern field p e)

def normalize (c : Config) : Config :=
  { c with locales := Text.items c.locales, fallbackLocales := Text.items c.fallbackLocales }

def parse (text : String) : Except Error Config :=
  match readDocument Config.read text with
  | .error e => .error (.malformed e)
  | .ok c => do
    checkPatterns "includes" c.includes
    checkPatterns "excludes" c.excludes
    .ok c.normalize

end Config

end TranslationAudit
