/-! # Markup trees

What a catalog file holds: elements with attributes in order, text and comments. Sections of
character data are text, and declarations, instructions and document types are no part of a tree.

* `Node`: a node of a tree; `Element`: an element as a value of its own.
* `appendText`: text put after a list of nodes, where it joins a text that stands last.
-/

namespace TranslationAudit.Markup

/-- A node of a markup tree. -/
inductive Node where
  | element (name : String) (attributes : List (String × String)) (children : List Node)
  | text (content : String)
  | comment (content : String)
deriving Inhabited

/-- An element of a markup tree. -/
structure Element where
  name : String
  attributes : List (String × String) := []
  children : List Node := []
deriving Inhabited

namespace Element

def toNode (e : Element) : Node := .element e.name e.attributes e.children

def attribute? (e : Element) (name : String) : Option String := e.attributes.lookup name

/-- The attributes with other names than the given ones, in order. -/
def attributesExcept (e : Element) (known : List String) : List (String × String) :=
  e.attributes.filter fun a => !known.contains a.1

end Element

def Node.element? : Node → Option Element
  | .element name attributes children => some ⟨name, attributes, children⟩
  | _ => none

def Node.text? : Node → Option String
  | .text s => some s
  | _ => none

namespace Element

def elements (e : Element) : List Element := e.children.filterMap Node.element?

def directText (e : Element) : String := String.join (e.children.filterMap Node.text?)

end Element

def appendText (nodes : List Node) (s : String) : List Node :=
  match nodes.getLast? with
  | some (.text t) => nodes.dropLast ++ [.text (t ++ s)]
  | _ => nodes ++ [.text s]

end TranslationAudit.Markup
