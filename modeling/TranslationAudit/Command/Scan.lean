import TranslationAudit.Command.Outcome
import TranslationAudit.CommandLine.Command

/-! # Scanning a project

* `runScan`: compares references with catalogs, and adds missing entries if it is asked to. A
  provider may fill their targets first.
-/

namespace TranslationAudit.Command

open Catalog (Addition WriteOutcome)

/-- The additions for missing translations, with targets from a provider, and remarks about it. A
provider is asked only if there is something to add. -/
def scanAdditions (env : Project.Environment) (p : Project) (provider : Option Translation.Provider)
    (verbose : Bool) (missing : List MissingTranslation) :
    Except Project.Error (List Addition × List String) :=
  let additions := missing.map Addition.ofMissing
  match provider with
  | none => .ok (additions, [])
  | some provider =>
    if additions.isEmpty then .ok ([], [])
    else
      let config := p.config.generation
      match Translation.translate? env.overflow provider env.now config.systemPrompt env.tree
          missing additions config.contextWindowLines with
      | none => .error .stopped
      | some (.error e) => .error (.translationFailed e)
      | some (.ok (additions, filled)) =>
        let note := "Note: " ++ toString filled ++ " translation(s) generated by " ++ provider.name
        .ok (additions, if verbose then [note] else [])

def scanWrite (env : Project.Environment) (p : Project) (o : ScanOptions) (index : Catalog.Index)
    (additions : List Addition) : WriteOutcome :=
  Catalog.writeAdditions (p.writerSettings o.dryRun (!o.noNeedsReview)) p.base p.config.paths index
    env.tree additions

def scanIssues (p : Project) (o : ScanOptions) (references : ReferenceIndex)
    (index : Catalog.Index) (found : Reconciliation) : List Issue :=
  catalogIssues p index ++ duplicateIssues p references ++
    found.missing.map (Issue.ofMissing p.base) ++
    (if o.ignorePlaceholderWarnings then [] else found.mismatches.map (Issue.ofMismatch p.base))

def scanCode (p : Project) (index : Catalog.Index) (found : Reconciliation) (writeFailed : Bool) :
    Nat :=
  if index.hasFaults || writeFailed then p.config.exitCodes.failure
  else if found.missing.isEmpty then p.config.exitCodes.success
  else p.config.exitCodes.missing

def scanProject (env : Project.Environment) (provider : Option Translation.Provider)
    (o : ScanOptions) (p : Project) (scope : Scope) : Outcome :=
  match p.references? env.tree with
  | none => failed env.tree p.notes .stopped
  | some references =>
    let index := p.catalogs env.tree
    let found := reconcile references index scope
    let issues := scanIssues p o references index found
    let summary := Summary.scan (runScope p o.dryRun) references.uniqueCount
      references.duplicateCount references.totalCount
    if o.update then
      match scanAdditions env p provider o.common.verbose found.missing with
      | .error e => failed env.tree p.notes e
      | .ok (additions, notes) =>
        let written := scanWrite env p o index additions
        let write := writeSummary p additions.length o.dryRun written
        { tree := written.tree
          notes := p.notes ++ notes
          result := .ok (report p (summary (some write)) (addFailures p written issues)
            (scanCode p index found (!written.failures.isEmpty))) }
    else
      { tree := env.tree
        notes := p.notes
        result := .ok (report p (summary none) issues (scanCode p index found false)) }

/-- Compares references with catalogs, and adds missing entries if it is asked to. -/
def runScan (env : Project.Environment) (provider : Option Translation.Provider) (o : ScanOptions) :
    Outcome :=
  match Project.ofOptions env o.common with
  | .error e => failed env.tree [] e
  | .ok p =>
    match p.scope o.ids with
    | .error e => failed env.tree p.notes e
    | .ok scope => scanProject env provider o p scope

end TranslationAudit.Command
