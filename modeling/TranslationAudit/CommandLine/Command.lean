import TranslationAudit.Project.Open

/-! # Commands

* `Command`: what a run is asked to do.
-/

namespace TranslationAudit

/-- The options of a scan. -/
structure ScanOptions where
  common : Project.Options := {}
  /-- Patterns for the identifiers that are compared. -/
  ids : List String := []
  /-- Whether missing entries are created. -/
  update : Bool := false
  dryRun : Bool := false
  ignorePlaceholderWarnings : Bool := false
  noNeedsReview : Bool := false
deriving DecidableEq, Inhabited

/-- The options of a sweep for unused entries. -/
structure UnusedOptions where
  common : Project.Options := {}
  /-- Whether unused entries are removed. -/
  delete : Bool := false
  dryRun : Bool := false
deriving DecidableEq, Inhabited

/-- The options of a formatting run. -/
structure FormatOptions where
  common : Project.Options := {}
  /-- Whether catalogs are only checked. -/
  check : Bool := false
deriving DecidableEq, Inhabited

/-- The options for a new configuration file. -/
structure InitOptions where
  root : Option String := none
deriving DecidableEq, Inhabited

/-- What a run is asked to do. -/
inductive Command where
  | scan (options : ScanOptions)
  | unused (options : UnusedOptions)
  | format (options : FormatOptions)
  | init (options : InitOptions)
deriving DecidableEq, Inhabited

def Command.verbose : Command → Bool
  | .scan o => o.common.verbose
  | .unused o => o.common.verbose
  | .format o => o.common.verbose
  | .init _ => false

end TranslationAudit
