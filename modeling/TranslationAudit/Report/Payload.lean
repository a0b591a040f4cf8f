import TranslationAudit.Json.Value
import TranslationAudit.Report.Summary

/-! # Reports for programs

* `payload?`: a report as a JSON value, with one list for each kind of issue.
-/

namespace TranslationAudit.Report

def localMembers (locale : String) (key : Key) (rule : Rule) : List (String × Json) :=
  [("locale", .string locale), ("package", .string key.package), ("source", .string key.source),
    ("id", .string key.id), ("issue", .string rule.name)]

def occurrenceMembers (o : Occurrence) : List (String × Json) :=
  [("file", .string o.file), ("line", .number o.line)]

def missingRow? : Issue → Option Json
  | .missingTranslation locale key fallback placeholders place =>
    some (.object (localMembers locale key .missingTranslation ++
      [("fallback", .ofOption fallback), ("placeholders", .strings placeholders)] ++
      occurrenceMembers place))
  | _ => none

def warningRow? : Issue → Option Json
  | .placeholderMismatch locale key missing passed used place =>
    some (.object (localMembers locale key .placeholderMismatch ++
      [("missingPlaceholders", .strings missing), ("referencePlaceholders", .strings passed),
       ("catalogPlaceholders", .strings used)] ++ occurrenceMembers place))
  | _ => none

def unusedRow? : Issue → Option Json
  | .unusedEntry locale key state source target file =>
    some (.object (localMembers locale key .unusedEntry ++
      [("state", .ofOption state), ("sourceText", .ofOption source),
       ("targetText", .ofOption target), ("file", .string file)]))
  | _ => none

def duplicate? : Issue → Option (Key × List Occurrence)
  | .duplicateReference key places => some (key, places)
  | _ => none

def duplicateRow (d : Key × List Occurrence) : Json :=
  .object [("package", .string d.1.package), ("source", .string d.1.source),
    ("id", .string d.1.id), ("occurrences", .number d.2.length),
    ("files", .array (d.2.map fun o => .object (occurrenceMembers o)))]

def duplicateRows (issues : List Issue) : List Json :=
  ((issues.filterMap duplicate?).mergeSort fun a b => compare a.1 b.1 != .gt).map duplicateRow

def errorRow? : Issue → Option Json
  | .catalogError message file context =>
    let details := Dict.ofList ((file.toList.map fun f => (Issue.fileDetail, f)) ++ context)
    some (.object [("message", .string message),
      ("context", .object (details.entries.map fun (name, value) => (name, .string value)))])
  | _ => none

def missingCatalogRow? : Issue → Option Json
  | .missingCatalog l =>
    some (.object [("locale", .string l.locale), ("packageKey", .string l.package),
      ("sourceName", .string l.source)])
  | _ => none

def diagnostics (issues : List Issue) : Json :=
  .object [("errors", .array (issues.filterMap errorRow?)),
    ("missingCatalogs", .array (issues.filterMap missingCatalogRow?))]

/-- A report as a value, if its command has such a form. -/
def payload? (r : Report) : Option Json :=
  let common := [("duplicates", .array (duplicateRows r.issues)),
    ("diagnostics", diagnostics r.issues)]
  match r.summary with
  | .scan .. => some (.object ([("missing", .array (r.issues.filterMap missingRow?)),
      ("warnings", .array (r.issues.filterMap warningRow?))] ++ common))
  | .unused .. => some (.object ([("unused", .array (r.issues.filterMap unusedRow?))] ++ common))
  | _ => none

end TranslationAudit.Report
