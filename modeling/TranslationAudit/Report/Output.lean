import TranslationAudit.Report.Payload
import TranslationAudit.Report.Table

/-! # The text of a report

* `Output`: what a run prints.
* `render`: what is printed for a report.
-/

namespace TranslationAudit.Report

/-- What a run prints, results and remarks apart. -/
structure Output where
  results : String := ""
  remarks : String := ""
deriving DecidableEq, Inhabited

def linesText (lines : List String) : String := String.join (lines.map (· ++ "\n"))

def render (style : TableStyle) (r : Report) : Output :=
  match r.summary, r.format, payload? r with
  | .init file false, _, _ => { remarks := linesText ["Error: " ++ file ++ " already exists"] }
  | _, .json, some payload => { results := linesText [payload.pretty] }
  | _, _, _ => { results := linesText (tableLines style r) }

end TranslationAudit.Report
