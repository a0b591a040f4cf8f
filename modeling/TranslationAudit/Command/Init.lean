import TranslationAudit.Command.Outcome
import TranslationAudit.CommandLine.Command

/-! # New configuration files

* `runInit`: writes a configuration file with all defaults, unless there is one.
-/

namespace TranslationAudit.Command

def defaultConfig : String := (Config.toJson {}).pretty

/-- Writes a configuration file with all defaults, unless there is one. -/
def runInit (env : Project.Environment) (o : InitOptions) : Outcome :=
  let shown := Path.join (o.root.getD env.workingDirectory) Project.configName
  let file := Path.join env.workingDirectory shown
  let report (created : Bool) (code : Nat) : Report :=
    { summary := .init Project.configName created, exitCode := code }
  if env.tree.exists? file then { tree := env.tree, result := .ok (report false 1) }
  else
    match env.tree.write file defaultConfig with
    | .error cause => failed env.tree [] (.configUnwritable shown cause)
    | .ok tree => { tree, result := .ok (report true 0) }

end TranslationAudit.Command
