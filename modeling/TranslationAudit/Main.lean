import TranslationAudit.Command.Run
import TranslationAudit.CommandLine.Parse

/-! # The command line

The files that a run can see are read into a tree, the command is carried out on it, and the files
that differ afterwards are written back.

* `main`: runs the command of the arguments.
-/

namespace TranslationAudit.Disk

abbrev Found := List (List String × FileNode)

/-- The names that lead to an absolute path. -/
def namesOf (path : String) : List String :=
  (Path.components path).filterMap fun
    | .name s => some s
    | _ => none

def isRelevant (file : String) : Bool :=
  (sourceFormat? file).isSome || Catalog.isCatalogFile file ||
    Path.fileName? file = some Project.configName

def contents (bytes : ByteArray) : FileNode :=
  match String.fromUTF8? bytes with
  | some s => .text s
  | none => .binary bytes.toList

/-- What stands at a path, if anything does. -/
def node? (path : String) : IO (Option FileNode) := do
  let file := (← IO.currentDir) / path
  if !(← file.pathExists) then return none
  if ← file.isDir then return some .directory
  if isRelevant path then return some (contents (← IO.FS.readBinFile path))
  return some (.binary [])

partial def everything (path : String) : IO Found := do
  match ← node? path with
  | none => return []
  | some .directory =>
    let entries ← ((← IO.currentDir) / path).readDir
    let below ← entries.toList.mapM fun e => everything (Path.join path e.fileName)
    return (namesOf path, .directory) :: below.flatten
  | some n => return [(namesOf path, n)]

/-- A directory and those that lead to it, with what tells where a project begins. -/
def surroundings (directory : String) : IO Found := do
  let found ← (Path.ancestors directory).mapM fun d => do
    let marks ← [d, Path.join d Project.configName, Path.join d ".git"].mapM fun p => do
      return (← node? p).map fun n => (namesOf p, n)
    return marks.filterMap id
  return found.flatten

def optionsOf : Command → Project.Options
  | .scan o => o.common
  | .unused o => o.common
  | .format o => o.common
  | .init o => { root := o.root }

def directories (env : Project.Environment) (c : Command) : List String :=
  match c, Project.ofOptions env (optionsOf c) with
  | .init _, _ => []
  | _, .error _ => []
  | _, .ok p => p.base :: Project.discoveryRoots p.base p.config.paths p.filters.package

def load (cwd : String) (c : Command) : IO FileTree := do
  let start := ((optionsOf c).root.map (Path.join cwd)).getD cwd
  let outer ← surroundings start
  let env : Project.Environment := ⟨.ofList outer, cwd, "", .wraps⟩
  let inner ← (directories env c).mapM everything
  return .ofList (inner.flatten ++ outer)

def save (before after : FileTree) : IO Unit := do
  for (place, n) in after.nodes.entries do
    match n with
    | .text s =>
      if before.node? place ≠ some n then
        let file := (← IO.currentDir) / ("/" ++ "/".intercalate place)
        if let some parent := file.parent then IO.FS.createDirAll parent
        IO.FS.writeFile file s
    | _ => pure ()

def isColored : IO Bool := do
  return (← (← IO.getStdout).isTty) && (← IO.getEnv "NO_COLOR").isNone

def runCommand (c : Command) : IO UInt32 := do
  let cwd := (← IO.currentDir).toString
  let tree ← load cwd c
  let outcome := Command.run ⟨tree, cwd, "", .wraps⟩ c
  save tree outcome.tree
  let printed := Command.print ⟨← isColored, c.verbose⟩ outcome
  IO.print printed.output.results
  IO.eprint printed.output.remarks
  if let some e := printed.failure then IO.eprintln ("Error: " ++ e.message)
  return printed.exitCode.toUInt32

def usageText : String :=
  "Usage: l10nguy <COMMAND>\n\nCommands:\n" ++
  "  scan    Find references without catalog entries (and create them with --update)\n" ++
  "  unused  Find catalog entries no reference uses (and delete them with --delete)\n" ++
  "  format  Rewrite catalogs in canonical form\n" ++
  "  init    Initialize a new .l10nguy.json configuration file"

def refuse : CommandLine.Usage → IO UInt32
  | .displayHelp => do
    IO.println usageText
    return 0
  | .displayVersion => do
    IO.println "l10nguy 0.1.0"
    return 0
  | _ => do
    IO.eprintln usageText
    return 2

end TranslationAudit.Disk

def main (args : List String) : IO UInt32 := do
  match TranslationAudit.CommandLine.parse args with
  | .error why => TranslationAudit.Disk.refuse why
  | .ok none => TranslationAudit.Disk.refuse .displayHelp
  | .ok (some command) => TranslationAudit.Disk.runCommand command
