import TranslationAudit.Command.Outcome
import TranslationAudit.CommandLine.Command

/-! # Sweeping a project

* `runUnused`: finds entries that no reference uses, and deletes them if it is asked to.
-/

namespace TranslationAudit.Command

/-- The exit code of a sweep. Entries that were deleted are no longer unused. -/
def unusedCode (p : Project) (o : UnusedOptions) (index : Catalog.Index)
    (entries : List Catalog.Entry) (deleteFailed : Bool) : Nat :=
  if index.hasFaults || deleteFailed then p.config.exitCodes.failure
  else if !entries.isEmpty && !(o.delete && !o.dryRun) then p.config.exitCodes.unused
  else p.config.exitCodes.success

def sweepProject (env : Project.Environment) (o : UnusedOptions) (p : Project) (scope : Scope) :
    Outcome :=
  match p.references? env.tree with
  | none => failed env.tree p.notes .stopped
  | some references =>
    let index := p.catalogs env.tree
    let entries := unusedEntries references index scope
    let issues := catalogIssues p index ++ duplicateIssues p references ++
      entries.map (Issue.ofUnused p.base)
    let summary := Summary.unused (runScope p o.dryRun) references.duplicateCount
    if o.delete && !entries.isEmpty then
      let deleted := Catalog.deleteEntries (p.writerSettings o.dryRun true) env.tree entries
      { tree := deleted.tree
        notes := p.notes
        result := .ok (report p (summary (some (writeSummary p entries.length o.dryRun deleted)))
          (addFailures p deleted issues)
          (unusedCode p o index entries (!deleted.failures.isEmpty))) }
    else
      { tree := env.tree
        notes := p.notes
        result := .ok (report p (summary none) issues (unusedCode p o index entries false)) }

/-- Finds entries that no reference uses, and deletes them if it is asked to. -/
def runUnused (env : Project.Environment) (o : UnusedOptions) : Outcome :=
  match Project.ofOptions env o.common with
  | .error e => failed env.tree [] e
  | .ok p =>
    match p.scope [] with
    | .error e => failed env.tree p.notes e
    | .ok scope => sweepProject env o p scope

end TranslationAudit.Command
