import TranslationAudit.Config
import TranslationAudit.Issue

/-! # What commands report

* `Summary`: the outcome of a command apart from its issues.
* `Report`: a summary with issues, the format to write them in and the exit code.
-/

namespace TranslationAudit

/-- What a run was limited to. -/
structure RunScope where
  package : Option String
  locales : List String
  dryRun : Bool
deriving DecidableEq, Inhabited

/-- The outcome of adding or removing entries. -/
structure WriteSummary where
  /-- The number of entries to add or remove. -/
  planned : Nat
  dryRun : Bool
  touched : List String
deriving DecidableEq, Inhabited

/-- The outcome of a command. -/
inductive Summary where
  /-- A scan counts references, and writes if it was asked to. -/
  | scan (scope : RunScope) (unique duplicates total : Nat) (write : Option WriteSummary)
  /-- A sweep deletes if it was asked to and found something. -/
  | unused (scope : RunScope) (duplicates : Nat) (delete : Option WriteSummary)
  /-- A formatting run changes catalogs, or would if it only checks. -/
  | format (scope : RunScope) (check : Bool) (count : Nat) (changed : List String)
  /-- A configuration file is created unless there is one. -/
  | init (file : String) (created : Bool)
deriving DecidableEq, Inhabited

/-- The outcome of a command with its issues, in the order of a report. -/
structure Report where
  summary : Summary
  format : OutputFormat := .table
  issues : List Issue := []
  exitCode : Nat
deriving DecidableEq, Inhabited

end TranslationAudit
