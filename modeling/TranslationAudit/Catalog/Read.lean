import TranslationAudit.Catalog.Document
import TranslationAudit.Catalog.Error

/-! # Reading catalogs

A catalog document is made of the first file element below the root and of the first body element in
it. Texts between the parts of a body are dropped.

* `readUnit`, `readGroup`: a unit and a plural group from their elements.
* `Document.ofRoot?`: a catalog from the root element of its file.
* `Document.parse`: a catalog from the text of its file.
-/

namespace TranslationAudit.Catalog

open Markup (Element Node)

def metadataNames : List String :=
  ["product-name", "source-language", "target-language", "original", "datatype"]

def readMetadata (file : Element) : Metadata where
  productName := file.attribute? "product-name"
  sourceLanguage := file.attribute? "source-language"
  targetLanguage := file.attribute? "target-language"
  extractedFrom := file.attribute? "original"
  datatype := file.attribute? "datatype"

/-! ## Units -/

/-- Adds a child of a unit's element to the unit. Of several sources or targets the last counts. -/
def readUnitChild (u : TransUnit) (n : Node) : TransUnit :=
  match n with
  | .text _ => u
  | .comment _ => { u with children := u.children ++ [.foreign n] }
  | .element name attributes children =>
    let e : Element := ⟨name, attributes, children⟩
    if name = "source" then
      { u with
        hasSource := true
        source := some e.directText
        sourceAttributes := attributes
        children := u.children ++ [.source] }
    else if name = "target" then
      { u with
        hasTarget := true
        target := some e.directText
        state := e.attribute? "state"
        targetAttributes := e.attributesExcept ["state"]
        children := u.children ++ [.target] }
    else { u with children := u.children ++ [.foreign n] }

def readUnit (e : Element) : TransUnit :=
  e.children.foldl readUnitChild { attributes := e.attributesExcept ["id", "xml:space"] }

/-! ## Plural groups -/

/-- The index of a form, if the identifier of its element belongs to the group. -/
def formIndex? (groupId : String) (e : Element) : Option Nat :=
  match (e.attribute? "id").bind splitPluralForm with
  | some (base, n) => if base = groupId then some n else none
  | none => none

/-- Adds the children of a group's element to the group. There is no group if it holds another group
or if its forms do not have indexes of their own. -/
def readGroupChildren (id : String) : PluralGroup → List Node → Option PluralGroup
  | g, [] => some g
  | g, n :: rest =>
    match n with
    | .text _ => readGroupChildren id g rest
    | .comment _ =>
      readGroupChildren id { g with children := g.children ++ [.foreign n] } rest
    | .element name attributes children =>
      let e : Element := ⟨name, attributes, children⟩
      if name = "group" then none
      else if name = "trans-unit" then
        match formIndex? id e with
        | none => none
        | some i =>
          if g.forms.contains i then none
          else
            readGroupChildren id
              { g with
                forms := g.forms.insert i (readUnit e)
                children := g.children ++ [.form i] }
              rest
      else readGroupChildren id { g with children := g.children ++ [.foreign n] } rest

def readGroup (id : String) (e : Element) : Option PluralGroup :=
  readGroupChildren id { attributes := e.attributesExcept ["id", "restype"] } e.children

/-! ## Documents -/

/-- What an element of a body is read as. -/
inductive BodyElement where
  | unit (id : String) (unit : CatalogUnit)
  | foreign
  | unsupported

/-- Reads an element of a body. It is foreign without an identifier of its own, or if it is neither
a unit nor a plural group. -/
def readBodyElement (d : Document) (e : Element) : BodyElement :=
  match e.attribute? "id" with
  | none => .foreign
  | some id =>
    if d.units.contains id then .foreign
    else if e.name = "trans-unit" then .unit id (.single (readUnit e))
    else if e.name = "group" ∧ e.attribute? "restype" = some pluralRestype then
      match readGroup id e with
      | none => .unsupported
      | some g => .unit id (.plural g)
    else .foreign

/-- Adds the nodes of a body to a document, unless one of them is not supported. -/
def readBody : Document → List Node → Option Document
  | d, [] => some d
  | d, n :: rest =>
    match n with
    | .text _ => readBody d rest
    | .comment _ => readBody { d with body := d.body ++ [.foreign n] } rest
    | .element name attributes children =>
      match readBodyElement d ⟨name, attributes, children⟩ with
      | .unsupported => none
      | .foreign => readBody { d with body := d.body ++ [.foreign n] } rest
      | .unit id u =>
        readBody { d with units := d.units.insert id u, body := d.body ++ [.unit id] } rest

namespace Document

/-- The catalog below a root element, unless its structure is not supported. -/
def ofRoot? (root : Element) : Option Document :=
  match root.elements.find? (·.name = "file") with
  | none => some {}
  | some file =>
    let d : Document :=
      { metadata := readMetadata file
        fileAttributes := file.attributesExcept metadataNames
        fileChildren := (file.elements.filter (·.name ≠ "body")).map Element.toNode }
    match file.elements.find? (·.name = "body") with
    | none => some d
    | some body => readBody d body.children

/-- The catalog in a text. The path stands in errors only. -/
def parse (path text : String) : Except Error Document :=
  if Text.isAllBlank text then .error (.empty path)
  else
    match Markup.parse text with
    | .error reason => .error (.malformed path reason)
    | .ok root =>
      match ofRoot? root with
      | none => .error (.unsupportedStructure path)
      | some d => .ok d

end Document

end TranslationAudit.Catalog
