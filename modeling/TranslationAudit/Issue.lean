import TranslationAudit.Catalog.Error
import TranslationAudit.Reconcile

/-! # Issues

What an audit reports. Paths are relative to the project.

* `Issue`: a finding, with all that a report shows about it.
* `Issue.message`, `Issue.details`, `Issue.hint?`: the words of a report.
* `Issue.compare`: the order of a report: by file and line, then by rule and words.
-/

namespace TranslationAudit

inductive Severity where
  | error
  | warning
deriving DecidableEq, Inhabited

def Severity.name : Severity → String
  | .error => "error"
  | .warning => "warning"

/-- The rules, in the order of a report. -/
inductive Rule where
  | catalogError
  | missingTranslation
  | placeholderMismatch
  | unusedEntry
  | duplicateReference
  | missingCatalog
deriving DecidableEq, Inhabited

namespace Rule

def name : Rule → String
  | .catalogError => "catalog-error"
  | .missingTranslation => "missing"
  | .placeholderMismatch => "placeholder-mismatch"
  | .unusedEntry => "unused"
  | .duplicateReference => "duplicate"
  | .missingCatalog => "missing-catalog"

def rank : Rule → Nat
  | .catalogError => 0
  | .missingTranslation => 1
  | .placeholderMismatch => 2
  | .unusedEntry => 3
  | .duplicateReference => 4
  | .missingCatalog => 5

/-- Findings that leave a text missing are errors, the others are warnings. -/
def severity : Rule → Severity
  | .catalogError => .error
  | .missingTranslation => .error
  | _ => .warning

end Rule

/-- A line of a file. -/
structure Occurrence where
  file : String
  line : Nat
deriving DecidableEq, Inhabited

def Reference.occurrence (base : String) (r : Reference) : Occurrence :=
  ⟨Path.relativeTo base r.file, r.line⟩

/-- A finding. -/
inductive Issue where
  | missingTranslation (locale : String) (key : Key) (fallback : Option String)
      (placeholders : List String) (place : Occurrence)
  | placeholderMismatch (locale : String) (key : Key) (missing passed used : List String)
      (place : Occurrence)
  | duplicateReference (key : Key) (places : List Occurrence)
  | unusedEntry (locale : String) (key : Key) (state source target : Option String) (file : String)
  | catalogError (message : String) (file : Option String) (context : List (String × String))
  | missingCatalog (location : Catalog.Location)
deriving DecidableEq, Inhabited

namespace Issue

/-! ## From findings -/

def ofMissing (base : String) (m : MissingTranslation) : Issue :=
  .missingTranslation m.locale m.key m.reference.fallback m.reference.placeholders.keys
    (m.reference.occurrence base)

def ofMismatch (base : String) (m : PlaceholderMismatch) : Issue :=
  .placeholderMismatch m.locale m.key m.missing m.passed m.used (m.reference.occurrence base)

/-- The issue of a key's references if there are several. -/
def ofDuplicates (base : String) (references : List Reference) : Option Issue :=
  references.head?.map fun first =>
    .duplicateReference first.key (references.map (Reference.occurrence base))

def ofUnused (base : String) (e : Catalog.Entry) : Issue :=
  .unusedEntry e.locale e.key e.state e.source e.target (Path.relativeTo base e.file)

def fileDetail : String := "file"

def ofFault (base : String) (f : Catalog.Fault) : Issue :=
  .catalogError f.message ((f.context.get? fileDetail).map (Path.relativeTo base))
    (f.context.entries.filter fun e => e.1 ≠ fileDetail)

def ofCatalogError (base : String) (e : Catalog.Error) : Issue :=
  .catalogError e.message (some (Path.relativeTo base e.path)) []

/-! ## Words -/

def rule : Issue → Rule
  | .missingTranslation .. => .missingTranslation
  | .placeholderMismatch .. => .placeholderMismatch
  | .duplicateReference .. => .duplicateReference
  | .unusedEntry .. => .unusedEntry
  | .catalogError .. => .catalogError
  | .missingCatalog .. => .missingCatalog

def severity (i : Issue) : Severity := i.rule.severity

/-- The file of an issue, with the line if there is one. -/
def place? : Issue → Option (String × Option Nat)
  | .missingTranslation _ _ _ _ place => some (place.file, some place.line)
  | .placeholderMismatch _ _ _ _ _ place => some (place.file, some place.line)
  | .duplicateReference _ places => places.head?.map fun p => (p.file, some p.line)
  | .unusedEntry _ _ _ _ _ file => some (file, none)
  | .catalogError _ file _ => file.map fun f => (f, none)
  | .missingCatalog _ => none

def placeText? (i : Issue) : Option String :=
  i.place?.map fun
    | (file, some line) => file ++ ":" ++ toString line
    | (file, none) => file

def message : Issue → String
  | .missingTranslation _ key _ _ _ => key.display
  | .placeholderMismatch _ key _ _ _ _ => key.display
  | .duplicateReference key _ => key.display
  | .unusedEntry _ key _ _ _ _ => key.display
  | .catalogError message _ _ => message
  | .missingCatalog l => l.package ++ ":" ++ l.source

def quoted (s : String) : String := "(\"" ++ s ++ "\")"

/-- What stands for an empty list. -/
def noneText : String := "<none>"

def listOrNone (items : List String) : String :=
  if items.isEmpty then noneText else ", ".intercalate items

def details : Issue → List String
  | .missingTranslation locale _ fallback _ _ =>
    match fallback.filter fun f => !Text.isAllBlank f with
    | some f => ["missing in " ++ locale ++ " " ++ quoted f]
    | none => ["missing in " ++ locale]
  | .placeholderMismatch locale _ missing passed _ _ =>
    [locale ++ ": placeholders not passed by the reference: " ++ ", ".intercalate missing,
     "reference passes: " ++ listOrNone passed]
  | .duplicateReference _ places =>
    (places.drop 1).map fun p => "also referenced at " ++ p.file ++ ":" ++ toString p.line
  | .unusedEntry locale _ _ source target _ =>
    [locale ++ " " ++ quoted ((target.or source).getD "")]
  | .catalogError _ _ context =>
    if context.isEmpty then []
    else [" ".intercalate (context.map fun (name, value) => name ++ "=" ++ value)]
  | .missingCatalog l => ["no catalog for locale " ++ l.locale]

def hint? : Issue → Option String
  | .missingCatalog _ => some "run \x60l10nguy scan --update\x60 to create it"
  | _ => none

/-! ## Order -/

/-- The order by rule and words. -/
def compareWords (a b : Issue) : Ordering :=
  (compare a.rule.rank b.rule.rank).then
    ((compare a.message b.message).then (compare a.details b.details))

/-- The order of a report. Issues without a file come last. -/
protected def compare (a b : Issue) : Ordering :=
  match a.place?, b.place? with
  | some (file, line), some (otherFile, otherLine) =>
    (compare file otherFile).then
      ((compare (line.getD 0) (otherLine.getD 0)).then (compareWords a b))
  | some _, none => .lt
  | none, some _ => .gt
  | none, none => compareWords a b

/-- Issues in the order of a report. -/
def sort (issues : List Issue) : List Issue :=
  issues.mergeSort fun a b => Issue.compare a b != .gt

end Issue

end TranslationAudit
