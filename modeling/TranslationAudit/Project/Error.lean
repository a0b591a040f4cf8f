import TranslationAudit.Catalog.Error
import TranslationAudit.Config
import TranslationAudit.Translation

/-! # Failures of runs

* `Project.Error`: why a run cannot be completed, with the words for it.
-/

namespace TranslationAudit.Project

/-- Why a run cannot be completed. -/
inductive Error where
  | configUnreadable (path : String) (cause : FileError)
  | configMalformed (path : String) (cause : Json.Error)
  | configUnwritable (path : String) (cause : FileError)
  | invalidPattern (field pattern : String) (cause : Glob.Error)
  | formatFailed (file : String) (cause : Catalog.Error)
  | translationFailed (cause : Translation.Error)
  /-- The program stopped where a slice or a sum does not exist. -/
  | stopped

def Error.message : Error → String
  | .configUnreadable path cause =>
    "Failed to read config file: " ++ Text.quotedPath path ++ ": " ++ cause.message
  | .configMalformed path cause =>
    "Failed to parse config file: " ++ Text.quotedPath path ++ ": " ++ cause.message
  | .configUnwritable path cause => "Failed to write " ++ path ++ ": " ++ cause.message
  | .invalidPattern field pattern cause =>
    "Invalid glob pattern in '" ++ field ++ "': \"" ++ pattern ++ "\": " ++ cause.message
  | .formatFailed file cause => "Failed to format " ++ file ++ ": " ++ cause.messageWithCauses
  | .translationFailed cause => "Translation provider failed: " ++ cause.message
  | .stopped => "The program stopped"

end TranslationAudit.Project
