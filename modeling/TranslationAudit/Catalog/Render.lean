import TranslationAudit.Catalog.Metadata
import TranslationAudit.Markup.Render

/-! # Writing catalogs

A catalog has one canonical text for each layout and header.

* `Layout`: the width of an indent, and whether units are sorted by identifier.
* `unitLines`, `groupLines`: the lines of a unit and of a plural group.
* `render`: the text of a catalog. Units stand where the body records them; units that it does not
  record follow in natural order.
-/

namespace TranslationAudit.Catalog

open Markup (indent escape formatAttributes tagText)

/-- How a catalog is laid out. -/
structure Layout where
  tabWidth : Nat := 2
  orderById : Bool := false
deriving DecidableEq, Inhabited

/-- Attributes with those of another list whose names are not among them yet. -/
def mergeAttributes (known others : List (String × String)) : List (String × String) :=
  others.foldl (fun as a => if as.any (·.1 = a.1) then as else as ++ [a]) known

def textLine (tab level : Nat) (name : String) (attributes : List (String × String))
    (text : String) : String :=
  indent tab level ++ "<" ++ tagText name attributes ++ ">" ++ escape text ++ "</" ++ name ++ ">"

/-! ## Units -/

namespace TransUnit

/-- The parts of a unit. A unit that records none has a source, and a target if there is one. -/
def parts (u : TransUnit) : List UnitChild :=
  if u.children.isEmpty then
    if (u.target.getD "").isEmpty then [.source] else [.source, .target]
  else u.children

/-- The attributes of the target with its state first. -/
def allTargetAttributes (u : TransUnit) : List (String × String) :=
  mergeAttributes (u.state.map fun s => ("state", s)).toList u.targetAttributes

/-- The lines of a part of a unit. A target that the unit did not have is left out while it is
empty. -/
def partLines (tab level : Nat) (u : TransUnit) : UnitChild → List String
  | .source => [textLine tab level "source" u.sourceAttributes (u.source.getD "")]
  | .target =>
    if !u.hasTarget && (u.target.getD "").isEmpty then []
    else [textLine tab level "target" u.allTargetAttributes (u.target.getD "")]
  | .foreign n => n.render tab level

def noteLine (tab level : Nat) (n : Note) : String :=
  textLine tab level "note" (n.author.map fun a => ("from", a)).toList n.content

end TransUnit

def unitLines (tab level : Nat) (id : String) (u : TransUnit) : List String :=
  let attributes := mergeAttributes [("id", id), ("xml:space", "preserve")] u.attributes
  [indent tab level ++ "<" ++ tagText "trans-unit" attributes ++ ">"] ++
    u.parts.flatMap (u.partLines tab (level + 1)) ++
    u.notes.map (TransUnit.noteLine tab (level + 1)) ++
    [indent tab level ++ "</trans-unit>"]

/-! ## Plural groups -/

/-- The lines of the recorded parts of a group, and the forms among them. Forms in `written` and
forms that the group does not have are left out. -/
def groupChildLines (layout : Layout) (id : String) (g : PluralGroup) :
    List Nat → List GroupChild → List String × List Nat
  | written, [] => ([], written)
  | written, .foreign n :: rest =>
    let (lines, written) := groupChildLines layout id g written rest
    (n.render layout.tabWidth 4 ++ lines, written)
  | written, .form i :: rest =>
    match if layout.orderById || written.contains i then none else g.forms.get? i with
    | none => groupChildLines layout id g written rest
    | some u =>
      let (lines, written) := groupChildLines layout id g (i :: written) rest
      (unitLines layout.tabWidth 4 (pluralFormId id i) u ++ lines, written)

def groupLines (layout : Layout) (id : String) (g : PluralGroup) : List String :=
  let attributes := mergeAttributes [("id", id), ("restype", g.restype)] g.attributes
  let (recorded, written) := groupChildLines layout id g [] g.children
  let others := g.forms.entries.filter fun e => !written.contains e.1
  [indent layout.tabWidth 3 ++ "<" ++ tagText "group" attributes ++ ">"] ++ recorded ++
    (others.flatMap fun (i, u) => unitLines layout.tabWidth 4 (pluralFormId id i) u) ++
    [indent layout.tabWidth 3 ++ "</group>"]

/-! ## Documents -/

def catalogUnitLines (layout : Layout) (id : String) : CatalogUnit → List String
  | .single u => unitLines layout.tabWidth 3 id u
  | .plural g => groupLines layout id g

/-- The lines of the recorded parts of a body, and the identifiers among them. Identifiers in
`written` and identifiers without a unit are left out. -/
def bodyLines (layout : Layout) (units : Dict String CatalogUnit) :
    List String → List BodyNode → List String × List String
  | written, [] => ([], written)
  | written, .foreign n :: rest =>
    let (lines, written) := bodyLines layout units written rest
    (n.render layout.tabWidth 3 ++ lines, written)
  | written, .unit id :: rest =>
    match if layout.orderById || written.contains id then none else units.get? id with
    | none => bodyLines layout units written rest
    | some u =>
      let (lines, written) := bodyLines layout units (id :: written) rest
      (catalogUnitLines layout id u ++ lines, written)

/-- The lines before the first part of the body. -/
def headLines (layout : Layout) (d : Document) (h : Header) : List String :=
  let attributes := mergeAttributes h.attributes d.fileAttributes
  ["<?xml version=\"1.0\" encoding=\"UTF-8\"?>",
   "<xliff xmlns=\"urn:oasis:names:tc:xliff:document:1.2\" version=\"1.2\">",
   indent layout.tabWidth 1 ++ "<" ++ tagText "file" attributes ++ ">"] ++
    Markup.Node.renderAll layout.tabWidth 2 d.fileChildren ++
    [indent layout.tabWidth 2 ++ "<body>"]

/-- The lines after the last part of the body. -/
def footLines (layout : Layout) : List String :=
  [indent layout.tabWidth 2 ++ "</body>", indent layout.tabWidth 1 ++ "</file>", "</xliff>"]

def lines (layout : Layout) (d : Document) (h : Header) : List String :=
  let (recorded, written) := bodyLines layout d.units [] d.body
  let others := d.units.entries.filter fun e => !written.contains e.1
  headLines layout d h ++ recorded ++
    ((Text.sortNatural Prod.fst others).flatMap fun (id, u) => catalogUnitLines layout id u) ++
    footLines layout

def render (layout : Layout) (d : Document) (h : Header) : String :=
  String.join ((lines layout d h).map (· ++ "\n"))

end TranslationAudit.Catalog
