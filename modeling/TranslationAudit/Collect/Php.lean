import TranslationAudit.Text.Lowercase
import TranslationAudit.Collect.Position
import TranslationAudit.Collect.Php.Grammar
import TranslationAudit.Collect.Php.Literal
import TranslationAudit.Message.Reference
import TranslationAudit.Message.Resolve

/-! # References in PHP files

Three calls name a message: `I18n::translate` and `I18n::plural` with identifier, fallback,
placeholders, source and package, and `->translateById` with identifier, placeholders, quantity,
locale, source and package. Only plain strings count as identifier, fallback, source or package.

* `CallShape`: which argument of a call means what.
* `Tree.calls`: the calls of a tree that have such a shape, outer calls before inner ones.
* `collectPhp`: the references of a file in the order of their positions. A file that is no program
  has none.
-/

namespace TranslationAudit.Php

/-! ## Calls -/

/-- The positions of the arguments of a call. -/
structure CallShape where
  fallback : Option Nat
  placeholders : Nat
  source : Nat
  package : Nat
  isPlural : Bool

namespace CallShape

def translate : CallShape := ⟨some 1, 2, 3, 4, false⟩

def plural : CallShape := { translate with isPlural := true }

def translateById : CallShape := ⟨none, 1, 4, 5, false⟩

end CallShape

/-- A call that names a message, with its offset and the values of its arguments. -/
structure Call where
  shape : CallShape
  start : Nat
  arguments : List Tree

def classNames : List String := ["I18n", "Neos\\Flow\\I18n"]

def Tree.text (source : Array Char) (t : Tree) : List Char :=
  (source.extract t.start t.stop).toList

def argumentValues (arguments : Tree) : List Tree :=
  (arguments.children.filter fun a => a.kind? = some .argument).filterMap fun a =>
    a.children.getLast?

def memberName? : List Tree → Option Tree
  | [t] => some t
  | [_, t, _] => some t
  | _ => none

def sameName (a : List Char) (b : String) : Bool :=
  Text.equalIgnoringCase (String.ofList a) b

def callShape? (source : Array Char) (kind : PartKind) (object name : Tree) : Option CallShape :=
  let called := name.text source
  match kind with
  | .scoped =>
    let scope := String.ofList ((object.text source).dropWhile (· = '\\'))
    if !classNames.contains scope then none
    else if sameName called "translate" then some .translate
    else if sameName called "plural" then some .plural
    else none
  | .member => if sameName called "translateById" then some .translateById else none
  | _ => none

/-- The call that a node is, if it names a message. -/
def call? (source : Array Char) (kind : PartKind) (children : List Tree) : Option Call :=
  match children with
  | object :: _ :: rest =>
    match rest.getLast? with
    | none => none
    | some last =>
      if last.kind? ≠ some .arguments then none
      else
        ((memberName? rest.dropLast).bind (callShape? source kind object)).map fun shape =>
          ⟨shape, object.start, argumentValues last⟩
  | _ => none

mutual

/-- The calls of a tree that name a message, outer calls before inner ones. -/
def Tree.calls (source : Array Char) : Tree → List Call
  | .leaf _ => []
  | .node kind children => (call? source kind children).toList ++ callsOf source children

def callsOf (source : Array Char) : List Tree → List Call
  | [] => []
  | t :: ts => t.calls source ++ callsOf source ts

end

/-! ## Literals -/

/-- The inside of a quoted text with an optional `b` before it. -/
def unquote (s : List Char) : List Char :=
  let s := match s with
    | c :: r => if c = 'b' ∨ c = 'B' then r else s
    | [] => []
  (s.drop 1).dropLast

/-- The value of a string without code in it. -/
def literal? (source : Array Char) : Tree → Option String
  | .leaf t =>
    if t.kind = .quoted then some (String.ofList (unescapeSingle (unquote t.text.toList)))
    else none
  | .node .template [opening, closing] =>
    let t := Tree.node .template [opening, closing]
    some (String.ofList (unescapeDouble (unquote (t.text source))))
  | _ => none

/-- The placeholders that an array passes: its literal keys with the text of their values. -/
def placeholders (source : Array Char) : Tree → Dict String String
  | .node .array children =>
    Dict.ofList <| children.filterMap fun element =>
      match element with
      | .node .element (key :: _ :: value :: _) =>
        (literal? source key).map fun name =>
          (name, String.ofList (Text.collapse (value.text source)))
      | _ => none
  | _ => .empty

/-! ## References -/

/-- The reference that a call makes, unless its identifier is no literal or resolves to no key. -/
def reference? (source : Array Char) (file : String) (line : Nat) (call : Call) :
    Option Reference :=
  let literalAt (i : Nat) : Option String := (call.arguments[i]?).bind (literal? source)
  match literalAt 0 with
  | none => none
  | some id =>
    (resolveKey id (literalAt call.shape.package) (literalAt call.shape.source)).map fun key =>
      { key, file, line
        format := .php
        fallback := call.shape.fallback.bind literalAt
        placeholders := (call.arguments[call.shape.placeholders]?.map (placeholders source)).getD
          .empty
        isPlural := call.shape.isPlural }

end TranslationAudit.Php

namespace TranslationAudit

open Php in
def collectPhp (file : String) (text : String) : List Reference :=
  let chars := text.toList
  let source := chars.toArray
  match (tokens chars).bind program? with
  | none => []
  | some program =>
    (program.calls source).filterMap fun call =>
      reference? source file (lineAt chars call.start) call

end TranslationAudit
