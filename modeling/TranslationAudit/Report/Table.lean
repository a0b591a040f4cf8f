import TranslationAudit.Report.Paint
import TranslationAudit.Report.Summary

/-! # Reports for readers

* `issueLines`: the lines of an issue.
* `tableLines`: the lines of a report with its header, its issues and what was written.
-/

namespace TranslationAudit.Report

def yesNo (b : Bool) : String := if b then "yes" else "no"

def successMark : String := "✓"

def failureMark : String := "✘"

/-- How a report for readers is written. -/
structure TableStyle where
  colored : Bool := false
  /-- Whether duplicate references are listed. -/
  verbose : Bool := false
deriving DecidableEq, Inhabited

/-! ## Issues -/

def severityText (colored : Bool) : Severity → String
  | .error => Paint.boldRed.apply colored Severity.error.name
  | .warning => Paint.boldYellow.apply colored Severity.warning.name

def noteLine (colored : Bool) (paint : Paint) (label text : String) : String :=
  "   " ++ Paint.blue.apply colored "=" ++ " " ++ paint.apply colored label ++ " " ++ text

/-- The lines of an issue. The last is empty. -/
def issueLines (colored : Bool) (i : Issue) : List String :=
  [severityText colored i.severity ++ ": \"" ++ i.message ++ "\"  " ++
     Paint.dimmedCyan.apply colored i.rule.name] ++
  i.placeText?.toList.map (fun place => "  " ++ Paint.blue.apply colored "-->" ++ " " ++ place) ++
  i.details.map (noteLine colored .bold "note:") ++
  i.hint?.toList.map (noteLine colored .boldCyan "hint:") ++ [""]

/-- A word in the form for a count. -/
def plural (n : Nat) (word : String) : String := if n = 1 then word else word ++ "s"

/-- The line that counts issues. -/
def countLine (colored : Bool) (issues : List Issue) : String :=
  let errors := issues.countP fun i => i.severity = .error
  let warnings := issues.length - errors
  Paint.red.apply colored failureMark ++ " " ++ toString issues.length ++ " problems (" ++
    toString errors ++ " " ++ Paint.red.apply colored (plural errors "error") ++ ", " ++
    toString warnings ++ " " ++ Paint.yellow.apply colored (plural warnings "warning") ++ ")"

/-- The lines of all issues that are shown, and their count. -/
def issuesLines (style : TableStyle) (issues : List Issue) : List String :=
  let shown := issues.filter fun i => style.verbose || i.rule ≠ .duplicateReference
  if shown.isEmpty then []
  else shown.flatMap (issueLines style.colored) ++ [countLine style.colored shown]

/-! ## Summaries -/

def packageLabel (s : RunScope) : String := s.package.getD "all packages"

def localesLabel (s : RunScope) : String := Issue.listOrNone s.locales

def headerLine (title : String) (s : RunScope) : String :=
  title ++ " " ++ packageLabel s ++ " (locales: " ++ localesLabel s ++
    ", format: table, dry-run: " ++ yesNo s.dryRun ++ ")."

/-- The line of a success, unless there is an issue of a rule. -/
def successLines (colored : Bool) (rule : Rule) (text : String) (issues : List Issue) :
    List String :=
  if issues.any fun i => i.rule = rule then []
  else [Paint.green.apply colored successMark ++ " " ++ Paint.green.apply colored text]

def duplicateLines (count : Nat) : List String :=
  if count = 0 then [] else ["Duplicate ids detected (" ++ toString count ++ " occurrences)."]

def touchedLines (colored : Bool) (w : WriteSummary) : List String :=
  let label :=
    if w.dryRun then Paint.yellow.apply colored "Would touch catalog:"
    else Paint.green.apply colored "Touched catalog:"
  w.touched.map fun file => label ++ " " ++ file

def writeLines (colored : Bool) (w : WriteSummary) : List String :=
  if w.planned = 0 then ["No catalog entries need to be created."]
  else if w.touched.isEmpty then ["Catalog writer did not touch any files."]
  else touchedLines colored w

def deleteLines (colored : Bool) (w : WriteSummary) : List String :=
  if w.touched.isEmpty then ["No catalog entries were deleted."] else touchedLines colored w

def referencesLine (unique duplicates total : Nat) : String :=
  "Reference index: " ++ toString unique ++ " unique (" ++ toString duplicates ++
    " duplicates flagged across " ++ toString total ++ " occurrences)."

def formatLines (s : RunScope) (check : Bool) (count : Nat) (changed : List String) :
    List String :=
  let header := "Prepared format run for " ++ packageLabel s ++ " (locales: " ++ localesLabel s ++
    ", check-only: " ++ yesNo check ++ ")."
  let label := if check then "Catalog requires formatting: " else "Formatted catalog: "
  let unchanged :=
    if check then "All catalogs already match the canonical format."
    else "Catalogs already normalized."
  header ::
    if count = 0 then ["No catalogs matched the given filters."]
    else if changed.isEmpty then [unchanged]
    else changed.map (label ++ ·)

def tableLines (style : TableStyle) (r : Report) : List String :=
  match r.summary with
  | .scan scope unique duplicates total write =>
    [headerLine "Prepared scan for" scope, referencesLine unique duplicates total] ++
      issuesLines style r.issues ++
      successLines style.colored .missingTranslation "No missing translations detected." r.issues ++
      duplicateLines duplicates ++ write.toList.flatMap (writeLines style.colored)
  | .unused scope duplicates delete =>
    [headerLine "Prepared unused sweep for" scope] ++ issuesLines style r.issues ++
      successLines style.colored .unusedEntry "No unused translations detected." r.issues ++
      duplicateLines duplicates ++ delete.toList.flatMap (deleteLines style.colored)
  | .format scope check count changed => formatLines scope check count changed
  | .init file created =>
    if created then
      [Paint.green.apply style.colored successMark ++ " " ++
        Paint.green.apply style.colored ("Created " ++ file)]
    else []

end TranslationAudit.Report
