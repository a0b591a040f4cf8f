import TranslationAudit.Project.Open
import TranslationAudit.Report.Summary

/-! # Outcomes of commands

* `Outcome`: the files and the remarks that a command leaves, and its report or its failure.
* `catalogIssues`, `duplicateIssues`, `addFailures`: the issues that commands share.
-/

namespace TranslationAudit.Command

open Catalog (Index WriteOutcome)

/-- What a command leaves. -/
structure Outcome where
  tree : FileTree
  /-- Remarks made on the way. -/
  notes : List String := []
  result : Except Project.Error Report

def failed (tree : FileTree) (notes : List String) (e : Project.Error) : Outcome :=
  ⟨tree, notes, .error e⟩

def runScope (p : Project) (dryRun : Bool) : RunScope :=
  ⟨p.filters.package, p.filters.locales, dryRun⟩

def catalogIssues (p : Project) (index : Index) : List Issue :=
  index.faults.map (Issue.ofFault p.base) ++ index.missingCatalogs.map Issue.missingCatalog

def duplicateIssues (p : Project) (references : ReferenceIndex) : List Issue :=
  references.duplicates.filterMap fun (key, _) =>
    Issue.ofDuplicates p.base (references.allFor key)

def sameFailure : Issue → Issue → Bool
  | .catalogError m file _, .catalogError n other _ => m = n && file = other
  | _, _ => false

/-- Adds an issue for a catalog that could not be written, unless it is there. -/
def addFailure (p : Project) (issues : List Issue) (e : Catalog.Error) : List Issue :=
  let issue := Issue.ofCatalogError p.base e
  if issues.any (sameFailure issue) then issues else issues ++ [issue]

/-- Adds issues for the catalogs that could not be written. -/
def addFailures (p : Project) (o : WriteOutcome) (issues : List Issue) : List Issue :=
  o.failures.foldl (addFailure p) issues

def writeSummary (p : Project) (planned : Nat) (dryRun : Bool) (o : WriteOutcome) : WriteSummary :=
  ⟨planned, dryRun, o.touched.map p.relative⟩

def report (p : Project) (summary : Summary) (issues : List Issue) (exitCode : Nat) : Report :=
  ⟨summary, p.config.format, Issue.sort issues, exitCode⟩

end TranslationAudit.Command
