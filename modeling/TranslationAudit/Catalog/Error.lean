import TranslationAudit.FileTree
import TranslationAudit.Markup.Document

/-! # Failures of catalogs

* `Error`: why a catalog cannot be read or written, with the path of its file.
-/

namespace TranslationAudit

namespace Catalog

/-- Why a catalog cannot be read or written. -/
inductive Error where
  | unreadable (path : String) (cause : FileError)
  | empty (path : String)
  | malformed (path : String) (reason : Markup.Error)
  | unsupportedStructure (path : String)
  | write (path : String) (cause : FileError)
deriving DecidableEq

namespace Error

def path : Error → String
  | .unreadable p _ => p
  | .empty p => p
  | .malformed p _ => p
  | .unsupportedStructure p => p
  | .write p _ => p

def message : Error → String
  | .unreadable p _ => "Unable to read catalog file \"" ++ p ++ "\"."
  | .empty p => "Catalog file \"" ++ p ++ "\" is empty."
  | .malformed p reason =>
    "Catalog file \"" ++ p ++ "\" contains malformed XML (" ++ reason.message ++ ")."
  | .unsupportedStructure p =>
    "Catalog \"" ++ p ++ "\" contains group nodes that are currently unsupported."
  | .write p _ => "Unable to write catalog file \"" ++ p ++ "\"."

def messageWithCauses : Error → String
  | .unreadable p cause => (Error.unreadable p cause).message ++ ": " ++ cause.message
  | .write p cause => (Error.write p cause).message ++ ": " ++ cause.message
  | e => e.message

end Error

end Catalog

end TranslationAudit
