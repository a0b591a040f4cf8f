import TranslationAudit.Collection.Dict
import TranslationAudit.Collection.SortedMap
import TranslationAudit.Markup.Node
import TranslationAudit.Message.Key

/-! # Catalog documents

A catalog holds the units of one package, source and locale. A document keeps enough of the file to
write what it does not understand back in place: the order of the body, attributes of other names,
and nodes of other kinds, which are called foreign.

* `TransUnit`: a source text and its translation.
* `PluralGroup`: the forms of a plural message.
* `Document`: a catalog; `Document.concreteUnits` lists its units with every plural form as a unit
  of its own, and `Document.find?` looks one of them up.
-/

namespace TranslationAudit.Catalog

/-- The metadata of a catalog, where an absent attribute is `none`. -/
structure Metadata where
  productName : Option String := none
  sourceLanguage : Option String := none
  targetLanguage : Option String := none
  /-- What the messages were taken from. -/
  extractedFrom : Option String := none
  datatype : Option String := none
deriving DecidableEq, Inhabited

/-- A remark that is written after the other parts of a unit. -/
structure Note where
  author : Option String
  content : String
deriving DecidableEq, Inhabited

/-- A part of a unit, in the order of the file. -/
inductive UnitChild where
  | source
  | target
  | foreign (node : Markup.Node)
deriving Inhabited

/-- A source text and its translation. -/
structure TransUnit where
  source : Option String := none
  target : Option String := none
  /-- The state of the translation. -/
  state : Option String := none
  /-- The attributes other than the identifier and the treatment of blanks. -/
  attributes : List (String × String) := []
  sourceAttributes : List (String × String) := []
  /-- The attributes of the translation other than its state. -/
  targetAttributes : List (String × String) := []
  children : List UnitChild := []
  hasSource : Bool := false
  hasTarget : Bool := false
  notes : List Note := []
deriving Inhabited

/-- A part of a plural group, in the order of the file. -/
inductive GroupChild where
  | form (index : Nat)
  | foreign (node : Markup.Node)
deriving Inhabited

/-- The kind of group that holds plural forms. -/
def pluralRestype : String := "x-gettext-plurals"

/-- The forms of a plural message. -/
structure PluralGroup where
  restype : String := pluralRestype
  attributes : List (String × String) := []
  forms : SortedMap Nat TransUnit := .empty
  children : List GroupChild := []
deriving Inhabited

/-- What an identifier of a catalog names. -/
inductive CatalogUnit where
  | single (unit : TransUnit)
  | plural (group : PluralGroup)
deriving Inhabited

/-- A part of the body of a catalog, in the order of the file. -/
inductive BodyNode where
  | unit (id : String)
  | foreign (node : Markup.Node)
deriving Inhabited

/-- A catalog. -/
structure Document where
  metadata : Metadata := {}
  /-- The attributes of the file that are no metadata. -/
  fileAttributes : List (String × String) := []
  /-- The parts of the file other than its body. -/
  fileChildren : List Markup.Node := []
  body : List BodyNode := []
  units : Dict String CatalogUnit := .empty
deriving Inhabited

namespace Document

def isEmpty (d : Document) : Bool := d.units.isEmpty

/-- The concrete units under an identifier, plural forms under identifiers of their own. -/
def concreteUnitsOf (id : String) : CatalogUnit → List (String × TransUnit)
  | .single u => [(id, u)]
  | .plural g => g.forms.entries.map fun (n, u) => (pluralFormId id n, u)

/-- All units, with each plural form as a unit of its own. -/
def concreteUnits (d : Document) : List (String × TransUnit) :=
  d.units.entries.flatMap fun (id, u) => concreteUnitsOf id u

/-- The unit of a concrete identifier. An identifier `base[n]` that names no single unit names form
`n` of the plural group `base`. -/
def find? (d : Document) (id : String) : Option TransUnit :=
  match d.units.get? id with
  | some (.single u) => some u
  | _ =>
    match splitPluralForm id with
    | none => none
    | some (base, n) =>
      match d.units.get? base with
      | some (.plural g) => g.forms.get? n
      | _ => none

end Document

end TranslationAudit.Catalog
