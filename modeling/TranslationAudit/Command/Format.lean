import TranslationAudit.Command.Outcome
import TranslationAudit.CommandLine.Command

/-! # Formatting the catalogs of a project

* `runFormat`: brings all catalogs into their canonical form, or only checks them. It stops at the
  first catalog that cannot be read or written.
-/

namespace TranslationAudit.Command

/-- Formats catalogs one after the other, and gives those that were in another form. -/
def formatFiles (p : Project) (apply : Bool) :
    FileTree → List (Catalog.Location × Catalog.File) →
      FileTree × Except Project.Error (List String)
  | tree, [] => (tree, .ok [])
  | tree, (l, file) :: rest =>
    match Catalog.format tree p.layout file.path l.package l.locale apply with
    | .error e => (tree, .error (.formatFailed (p.relative file.path) e))
    | .ok (tree, clean) =>
      let (tree, changed) := formatFiles p apply tree rest
      (tree, changed.map fun files => if clean then files else p.relative file.path :: files)

def formatProject (env : Project.Environment) (o : FormatOptions) (p : Project) : Outcome :=
  let files := (p.catalogs env.tree).files.entries
  let (tree, changed) := formatFiles p (!o.check) env.tree files
  { tree
    notes := p.notes
    result := changed.map fun changed =>
      let codes := p.config.exitCodes
      report p (.format (runScope p o.check) o.check files.length changed) []
        (if o.check && !changed.isEmpty then codes.dirty else codes.success) }

/-- Brings all catalogs into their canonical form, or only checks them. -/
def runFormat (env : Project.Environment) (o : FormatOptions) : Outcome :=
  match Project.ofOptions env o.common with
  | .error e => failed env.tree [] e
  | .ok p => formatProject env o p

end TranslationAudit.Command
