import TranslationAudit.CommandLine.Command

/-! # Reading command lines

* `CommandLine.Switch`: an option by its names, and what it does.
* `CommandLine.parseSwitches`: reads options for a table of switches.
* `CommandLine.parse`: the command that arguments stand for, if there is one.

The value of an option may stand in the same argument after `=`, or in the next one. A value in the
next argument is looked at only when another option begins or the arguments end, so an unknown
argument right after it is refused first.
-/

namespace TranslationAudit.CommandLine

/-- Why there is nothing to run. -/
inductive Usage where
  | unknownArgument
  | invalidValue
  | invalidSubcommand
  | argumentConflict
  | tooManyValues
  | displayHelp
  | displayVersion
deriving DecidableEq, Inhabited

/-- What an option does to the options read so far. -/
inductive Action (σ : Type) where
  /-- Sets something; given at most once. -/
  | flag (set : σ → σ)
  /-- Takes a value that may be refused; given at most once. -/
  | single (set : String → σ → Option σ)
  /-- Takes a value; may be repeated. -/
  | repeated (add : String → σ → σ)
  /-- Ends the reading. -/
  | stop (why : Usage)

/-- An option by its names. -/
structure Switch (σ : Type) where
  name : String
  letter : Option Char := none
  action : Action σ

namespace Switch

variable {σ : Type}

def takesValue (s : Switch σ) : Bool :=
  match s.action with
  | .single _ => true
  | .repeated _ => true
  | _ => false

end Switch

/-- What was read so far. -/
structure Progress (σ : Type) where
  options : σ
  /-- The options that were given. -/
  given : List String := []
  /-- An option whose value is still to be looked at or to come. -/
  pending : Option (Switch σ × Option String) := none

namespace Progress

variable {σ : Type}

/-- Notes that an option was given, which may be done once. -/
def once (p : Progress σ) (s : Switch σ) : Except Usage (Progress σ) :=
  if s.name ∈ p.given then .error .argumentConflict else .ok { p with given := s.name :: p.given }

/-- Takes an option with its value, if it has one. -/
def take (p : Progress σ) (s : Switch σ) (value : Option String) : Except Usage (Progress σ) :=
  match s.action, value with
  | .stop why, _ => .error why
  | .flag set, _ => (p.once s).map fun p => { p with options := set p.options }
  | .single _, none => .error .invalidValue
  | .repeated _, none => .error .invalidValue
  | .single set, some v =>
    (p.once s).bind fun p =>
      match set v p.options with
      | none => .error .invalidValue
      | some options => .ok { p with options }
  | .repeated add, some v => .ok { p with options := add v p.options }

def settle (p : Progress σ) : Except Usage (Progress σ) :=
  match p.pending with
  | none => .ok p
  | some (s, value) => { p with pending := none }.take s value

def known (p : Progress σ) (s : Switch σ) (attached : Option String) : Except Usage (Progress σ) :=
  match attached with
  | some v =>
    if s.takesValue then p.settle.bind fun p => p.take s (some v) else .error .tooManyValues
  | none =>
    p.settle.bind fun p =>
      if s.takesValue then .ok { p with pending := some (s, none) } else p.take s none

def letters (switches : List (Switch σ)) : List Char → Progress σ → Except Usage (Progress σ)
  | [], p => .ok p
  | c :: r, p =>
    match switches.find? fun s => s.letter = some c with
    | none => .error .unknownArgument
    | some s => (p.known s none).bind (letters switches r)

def plain (p : Progress σ) (arg : String) : Except Usage (Progress σ) :=
  match p.pending with
  | some (s, none) => .ok { p with pending := some (s, some arg) }
  | _ => .error .unknownArgument

end Progress

def splitLong (s : List Char) : String × Option String :=
  match Text.cutAt? '=' s with
  | none => (String.ofList s, none)
  | some (name, value) => (String.ofList name, some (String.ofList value))

def parseArguments {σ : Type} (switches : List (Switch σ)) :
    List String → Progress σ → Except Usage σ
  | [], p => p.settle.map Progress.options
  | arg :: rest, p =>
    match arg.toList with
    | ['-', '-'] => if rest.isEmpty then p.settle.map Progress.options else .error .unknownArgument
    | '-' :: '-' :: long =>
      let (name, attached) := splitLong long
      match switches.find? fun s => s.name = name with
      | none => .error .unknownArgument
      | some s => (p.known s attached).bind (parseArguments switches rest)
    | '-' :: c :: r => (p.letters switches (c :: r)).bind (parseArguments switches rest)
    | _ => (p.plain arg).bind (parseArguments switches rest)

/-- Reads options to the end of the arguments, starting from defaults. -/
def parseSwitches {σ : Type} (switches : List (Switch σ)) (defaults : σ) (args : List String) :
    Except Usage σ :=
  parseArguments switches args { options := defaults }

/-! ## The switches of the commands -/

def help {σ : Type} : Switch σ := ⟨"help", some 'h', .stop .displayHelp⟩

/-- A directory, which must not be empty. -/
def nonEmpty? (v : String) : Option String := if v.isEmpty then none else some v

/-- The switches for the options that commands share, which `update` changes within their own. -/
def commonSwitches {σ : Type} (update : (Project.Options → Project.Options) → σ → σ) :
    List (Switch σ) :=
  [⟨"root", none, .single fun v s =>
      (nonEmpty? v).map fun v => update (fun o => { o with root := some v }) s⟩,
   ⟨"package", none, .single fun v s => some (update (fun o => { o with package := some v }) s)⟩,
   ⟨"source", none, .single fun v s => some (update (fun o => { o with source := some v }) s)⟩,
   ⟨"path", none, .repeated fun v s => update (fun o => { o with paths := o.paths ++ [v] }) s⟩,
   ⟨"locales", none, .repeated fun v s =>
      update (fun o => { o with locales := o.locales ++ [v] }) s⟩,
   ⟨"format", none, .single fun v s =>
      (OutputFormat.ofName? v).map fun f => update (fun o => { o with format := some f }) s⟩,
   ⟨"verbose", some 'v', .flag fun s => update (fun o => { o with verbose := true }) s⟩,
   help]

def scanSwitches : List (Switch ScanOptions) :=
  commonSwitches (fun f o => { o with common := f o.common }) ++
  [⟨"id", none, .repeated fun v o => { o with ids := o.ids ++ [v] }⟩,
   ⟨"update", none, .flag fun o => { o with update := true }⟩,
   ⟨"dry-run", none, .flag fun o => { o with dryRun := true }⟩,
   ⟨"ignore-placeholder-warnings", none, .flag fun o =>
      { o with ignorePlaceholderWarnings := true }⟩,
   ⟨"no-needs-review", none, .flag fun o => { o with noNeedsReview := true }⟩]

def unusedSwitches : List (Switch UnusedOptions) :=
  commonSwitches (fun f o => { o with common := f o.common }) ++
  [⟨"delete", none, .flag fun o => { o with delete := true }⟩,
   ⟨"dry-run", none, .flag fun o => { o with dryRun := true }⟩]

def formatSwitches : List (Switch FormatOptions) :=
  commonSwitches (fun f o => { o with common := f o.common }) ++
  [⟨"check", none, .flag fun o => { o with check := true }⟩]

def initSwitches : List (Switch InitOptions) :=
  [⟨"root", none, .single fun v _ => (nonEmpty? v).map fun v => { root := some v }⟩, help]

/-! ## Commands -/

def parseScan (args : List String) : Except Usage ScanOptions := parseSwitches scanSwitches {} args

def commandNames : List String := ["scan", "unused", "format", "init", "help"]

def parseHelp : List String → Usage
  | [] => .displayHelp
  | name :: rest =>
    if name ∈ commandNames && rest.isEmpty then .displayHelp else .invalidSubcommand

/-- Reads a command by its name, if it is one. -/
def parseCommand? (name : String) (args : List String) : Option (Except Usage Command) :=
  match name with
  | "scan" => some ((parseScan args).map .scan)
  | "unused" => some ((parseSwitches unusedSwitches {} args).map .unused)
  | "format" => some ((parseSwitches formatSwitches {} args).map .format)
  | "init" => some ((parseSwitches initSwitches {} args).map .init)
  | "help" => some (.error (parseHelp args))
  | _ => none

/-- The switches without a command. -/
def topSwitches : List (Switch Unit) :=
  [help, ⟨"version", some 'V', .stop .displayVersion⟩]

/-- Refuses an argument that is no command. After `--` no command may follow. -/
def refuseTop (arg : String) (rest : List String) : Usage :=
  if arg = "--" then
    if rest.head?.any commandNames.contains then .unknownArgument else .invalidSubcommand
  else if arg.toList.head? = some '-' && arg ≠ "-" then .unknownArgument
  else .invalidSubcommand

/-- The command that arguments stand for. No arguments stand for none. -/
def parse : List String → Except Usage (Option Command)
  | [] => .ok none
  | arg :: rest =>
    match parseCommand? arg rest with
    | some c => c.map some
    | none =>
      if arg = "--" && rest.isEmpty then .ok none
      else
        match parseSwitches topSwitches () [arg] with
        | .error .displayHelp => .error .displayHelp
        | .error .displayVersion => .error .displayVersion
        | .error .tooManyValues => .error .tooManyValues
        | _ => .error (refuseTop arg rest)

end TranslationAudit.CommandLine
