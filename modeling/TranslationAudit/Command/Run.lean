import TranslationAudit.Command.Format
import TranslationAudit.Command.Init
import TranslationAudit.Command.Scan
import TranslationAudit.Command.Unused
import TranslationAudit.Report.Output

/-! # Running commands

* `Command.run`: carries out a command.
* `Command.print`: what a run prints, and its exit code.
-/

namespace TranslationAudit.Command

def run (env : Project.Environment) : Command → Outcome
  | .scan o => runScan env none o
  | .unused o => runUnused env o
  | .format o => runFormat env o
  | .init o => runInit env o

/-- What a run prints, with its exit code. -/
structure Printed where
  output : Report.Output
  exitCode : Nat
  failure : Option Project.Error := none

/-- The exit code of a run that is not completed. A program that stops has one of its own. -/
def failureCode : Project.Error → Nat
  | .stopped => 101
  | _ => 2

def print (style : Report.TableStyle) (o : Outcome) : Printed :=
  let notes := Report.linesText o.notes
  match o.result with
  | .error e => { output := { remarks := notes }, exitCode := failureCode e, failure := some e }
  | .ok r =>
    let output := Report.render style r
    { output := { output with remarks := notes ++ output.remarks }, exitCode := r.exitCode }

end TranslationAudit.Command
