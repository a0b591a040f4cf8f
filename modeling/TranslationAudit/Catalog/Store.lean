import TranslationAudit.Catalog.Read
import TranslationAudit.Catalog.Render

/-! # Catalogs in files

* `Document.load`: reads a catalog. A file that does not exist is an empty catalog.
* `store`: writes the text of a catalog.
* `format`: brings a catalog into its canonical form.
-/

namespace TranslationAudit.Catalog

/-- Reads a catalog. A file that does not exist is an empty catalog. -/
def Document.load (t : FileTree) (path : String) : Except Error Document :=
  match t.read path with
  | .ok text => Document.parse path text
  | .error .notFound => .ok {}
  | .error cause => .error (.unreadable path cause)

def store (t : FileTree) (path text : String) : Except Error FileTree :=
  match t.save path text with
  | .ok t => .ok t
  | .error cause => .error (.write path cause)

/-- Compares a catalog with its canonical form, and tells whether they were equal. If `apply` is
set, a catalog in another form is written anew. -/
def format (t : FileTree) (layout : Layout) (path package locale : String) (apply : Bool) :
    Except Error (FileTree × Bool) :=
  (Document.load t path).bind fun d =>
    let text := render layout d (Header.resolve d.metadata package locale)
    if (t.read path).toOption = some text then .ok (t, true)
    else if apply then (store t path text).map fun t => (t, false)
    else .ok (t, false)

end TranslationAudit.Catalog
