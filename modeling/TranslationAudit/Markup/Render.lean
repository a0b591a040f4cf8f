import TranslationAudit.Markup.Attribute
import TranslationAudit.Markup.Node
import TranslationAudit.Text.Natural

/-! # Writing markup trees

The canonical form of a tree has one line for a text, a comment, an element without content and an
element that holds a text only; the children of any other element stand one level deeper than its
tags. Texts are trimmed, blank ones are left out, and attributes are in natural order.

* `Node.render`: the lines of a node at a level.
-/

namespace TranslationAudit.Markup

/-- The blanks before a line of a level. -/
def indent (tab level : Nat) : String := String.ofList (List.replicate (tab * level) ' ')

def tagText (name : String) (attributes : List (String × String)) : String :=
  if attributes.isEmpty then name else name ++ " " ++ formatAttributes attributes

namespace Node

def isBlankText : Node → Bool
  | .text s => Text.isAllBlank s
  | _ => false

def visible (nodes : List Node) : List Node := nodes.filter fun n => !n.isBlankText

mutual

def render (tab level : Nat) : Node → List String
  | .text s =>
    if Text.isAllBlank s then [] else [indent tab level ++ escape (Text.trimmed s)]
  | .comment s => [indent tab level ++ "<!--" ++ s ++ "-->"]
  | .element name attributes children =>
    let tag := tagText name (Text.sortNatural Prod.fst attributes)
    match visible children with
    | [] => [indent tab level ++ "<" ++ tag ++ "/>"]
    | [.text s] =>
      [indent tab level ++ "<" ++ tag ++ ">" ++ escape (Text.trimmed s) ++ "</" ++ name ++ ">"]
    | _ =>
      [indent tab level ++ "<" ++ tag ++ ">"] ++ renderAll tab (level + 1) children ++
        [indent tab level ++ "</" ++ name ++ ">"]

def renderAll (tab level : Nat) : List Node → List String
  | [] => []
  | n :: rest => n.render tab level ++ renderAll tab level rest

end

end Node

end TranslationAudit.Markup
