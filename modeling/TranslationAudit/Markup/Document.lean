import TranslationAudit.Markup.Node
import TranslationAudit.Markup.Piece

/-! # Reading a markup document

* `Building`: the elements that are open and the root element, once it is closed.
* `Building.add`: what a piece changes.
* `parse`: the root element of a document.
* `Error`: why a text is no document.
-/

namespace TranslationAudit.Markup

/-- Why a text is no document. Offsets count bytes. -/
inductive Error where
  | piece (error : PieceError) (offset : Nat)
  | attribute (error : AttributeError)
  | entity (error : EntityError)
  | mismatchedClosing (expected found : String) (offset : Nat)
  | unmatchedClosing (name : String) (offset : Nat)
  | extraContent
  | textOutside
  | notClosed (name : String)
  | empty
deriving DecidableEq

def Error.message : Error → String
  | .piece e offset => e.message ++ " at byte " ++ toString offset
  | .attribute e => e.message
  | .entity e => e.message
  | .mismatchedClosing expected found offset =>
    "ill-formed document: expected `</" ++ expected ++ ">`, but `</" ++ found ++
      ">` was found at byte " ++ toString offset
  | .unmatchedClosing name offset =>
    "ill-formed document: close tag `</" ++ name ++ ">` does not match any open tag at byte " ++
      toString offset
  | .extraContent => "extra content at the end of the document"
  | .textOutside => "text outside of the root element"
  | .notClosed name => "premature end of data in tag " ++ name
  | .empty => "document is empty"

/-- A document that has been read in part: its open elements, the innermost first, and its root
element, once it is closed. -/
structure Building where
  opened : List Element := []
  root : Option Element := none

namespace Building

/-- Puts an element that is complete into the innermost open one, or makes it the root. -/
def attach (b : Building) (e : Element) : Except Error Building :=
  match b.opened with
  | parent :: outer =>
    .ok { b with opened := { parent with children := parent.children ++ [e.toNode] } :: outer }
  | [] =>
    match b.root with
    | none => .ok { b with root := some e }
    | some _ => .error .extraContent

/-- Changes the children of the innermost open element. Outside all elements nothing changes. -/
def within (b : Building) (f : List Node → List Node) : Building :=
  match b.opened with
  | parent :: outer =>
    { b with opened := { parent with children := f parent.children } :: outer }
  | [] => b

def add (b : Building) (offset : Nat) (piece : Piece) : Except Error Building :=
  match piece with
  | .text raw =>
    match unescape raw with
    | .error e => .error (.entity e)
    | .ok s =>
      if b.opened.isEmpty && !Text.allBlank s then .error .textOutside
      else .ok (b.within (appendText · (String.ofList s)))
  | .opening content =>
    match readTag content with
    | .error e => .error (.attribute e)
    | .ok (name, attributes) =>
      if b.opened.isEmpty && b.root.isSome then .error .extraContent
      else .ok { b with opened := ⟨name, attributes, []⟩ :: b.opened }
  | .empty content =>
    match readTag content with
    | .error e => .error (.attribute e)
    | .ok (name, attributes) => b.attach ⟨name, attributes, []⟩
  | .closing name =>
    match b.opened with
    | [] => .error (.unmatchedClosing (String.ofList name) offset)
    | e :: outer =>
      if e.name = String.ofList name then { b with opened := outer }.attach e
      else .error (.mismatchedClosing e.name (String.ofList name) offset)
  | .comment content => .ok (b.within (· ++ [.comment (String.ofList content)]))
  | .characterData content => .ok (b.within (appendText · (String.ofList content)))
  | .ignored => .ok b

/-- Reads pieces in order. -/
def addAll : Building → List (Nat × Piece) → Except Error Building
  | b, [] => .ok b
  | b, (offset, piece) :: rest =>
    match b.add offset piece with
    | .error e => .error e
    | .ok b => b.addAll rest

/-- The root element, if every element is closed. -/
def finish (b : Building) : Except Error Element :=
  match b.opened, b.root with
  | e :: _, _ => .error (.notClosed e.name)
  | [], some root => .ok root
  | [], none => .error .empty

end Building

def parse (s : String) : Except Error Element :=
  let (found, ending) := pieces s.toList
  match Building.addAll {} found with
  | .error e => .error e
  | .ok b =>
    match ending with
    | some (offset, e) => .error (.piece e offset)
    | none => b.finish

end TranslationAudit.Markup
