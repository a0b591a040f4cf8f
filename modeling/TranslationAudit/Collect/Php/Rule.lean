import TranslationAudit.Collect.Php.Token

/-! # Grammar rules

A grammar is data: a rule for each of its names. Alternatives are ordered and the first that fits is
taken.

* `Tree`: the tree of a text, whose leaves are its tokens.
* `Rule`: what may stand in a text, over a type of names for rules.
* `Rule.run`: reads a rule from the front of a token list; the trees it built and the tokens left.
* Closing tags may stand between any two tokens. They matter where a statement can end, so
  `terminal` passes over them and `adjacent` and `semicolon` see them.
-/

namespace TranslationAudit.Php

/-- The parts of a program that are told apart. -/
inductive PartKind where
  /-- A string in double quotes; its parts are the code in it. -/
  | template
  | array
  | element
  | argument
  | arguments
  /-- Access to a class, or a call when arguments follow. -/
  | scoped
  /-- Access to an object, or a call when arguments follow. -/
  | member
  | call
  | subscript
  | name
  | dynamicVariable
  | listPattern
  | other
deriving DecidableEq, Inhabited

/-- The tree of a text. -/
inductive Tree where
  | leaf (token : Token)
  | node (kind : PartKind) (children : List Tree)
deriving Inhabited

namespace Tree

def kind? : Tree → Option PartKind
  | .leaf _ => none
  | .node k _ => some k

def children : Tree → List Tree
  | .leaf _ => []
  | .node _ ts => ts

mutual

def leaves : Tree → List Token
  | .leaf t => [t]
  | .node _ ts => leavesOf ts

def leavesOf : List Tree → List Token
  | [] => []
  | t :: ts => t.leaves ++ leavesOf ts

end

def start (t : Tree) : Nat := (t.leaves.head?.map Token.start).getD 0

def stop (t : Tree) : Nat := (t.leaves.getLast?.map Token.stop).getD 0

end Tree

/-! ## Rules -/

/-- What may stand in a text, where `N` names the rules of a grammar. -/
inductive Rule (N : Type) where
  /-- Nothing. -/
  | empty
  /-- One token of a class. -/
  | terminal (accepts : Token → Bool)
  /-- Nothing, where no closing tag comes next. -/
  | adjacent
  /-- A semicolon, or nothing where a closing tag comes next. -/
  | semicolon
  | seq (first second : Rule N)
  /-- The first alternative if it fits, or else the second. -/
  | alt (first second : Rule N)
  /-- A rule as often as it fits. -/
  | many (rule : Rule N)
  /-- Nothing, where a rule does not fit. -/
  | notAhead (rule : Rule N)
  /-- A rule whose trees become one node. -/
  | node (kind : PartKind) (rule : Rule N)
  /-- A rule that builds one tree, followed by suffixes. Each suffix takes the tree so far as the
  first child of its own node, and that tree says which suffixes may follow. -/
  | chain (base : Rule N) (suffix : Tree → Rule N)
  /-- More suffixes of a tree. -/
  | grow (tree : Tree) (suffix : Tree → Rule N)
  | ref (name : N)

namespace Rule

variable {N : Type}

def dropTags (ts : List Token) : List Token := ts.dropWhile fun t => t.kind = .closingTag

/-- Reads a rule from the front of a token list. The fuel bounds the depth of the reading. -/
def run (grammar : N → Rule N) : Nat → Rule N → List Token → Option (List Tree × List Token)
  | 0, _, _ => none
  | fuel + 1, rule, ts =>
    match rule with
    | .empty => some ([], ts)
    | .terminal accepts =>
      match dropTags ts with
      | t :: rest => if accepts t then some ([.leaf t], rest) else none
      | [] => none
    | .adjacent =>
      match ts with
      | t :: _ => if t.kind = .closingTag then none else some ([], ts)
      | [] => some ([], ts)
    | .semicolon =>
      match ts with
      | t :: rest =>
        if t.kind = .closingTag then some ([], ts)
        else if t.kind = .symbol ∧ t.text = ";" then some ([.leaf t], rest)
        else none
      | [] => none
    | .seq a b =>
      match run grammar fuel a ts with
      | none => none
      | some (xs, rest) => (run grammar fuel b rest).map fun (ys, rest) => (xs ++ ys, rest)
    | .alt a b =>
      match run grammar fuel a ts with
      | none => run grammar fuel b ts
      | some found => some found
    | .many r =>
      match run grammar fuel r ts with
      | none => some ([], ts)
      | some (xs, rest) =>
        (run grammar fuel (.many r) rest).map fun (ys, rest) => (xs ++ ys, rest)
    | .notAhead r =>
      match run grammar fuel r ts with
      | none => some ([], ts)
      | some _ => none
    | .node k r => (run grammar fuel r ts).map fun (xs, rest) => ([.node k xs], rest)
    | .chain base suffix =>
      match run grammar fuel base ts with
      | some ([t], rest) => run grammar fuel (.grow t suffix) rest
      | other => other
    | .grow t suffix =>
      match run grammar fuel (suffix t) ts with
      | some ([.node k xs], rest) => run grammar fuel (.grow (.node k (t :: xs)) suffix) rest
      | _ => some ([t], ts)
    | .ref n => run grammar fuel (grammar n) ts

/-! ## Combinations -/

/-- Rules one after the other. -/
def all (rules : List (Rule N)) : Rule N := rules.foldr seq empty

def never : Rule N := terminal fun _ => false

/-- The first of several alternatives that fits. -/
def first (rules : List (Rule N)) : Rule N := rules.foldr alt never

def optional (r : Rule N) : Rule N := alt r empty

def symbol (s : String) : Rule N := terminal fun t => t.kind = .symbol && t.text == s

def symbolIn (ss : List String) : Rule N :=
  terminal fun t => t.kind = .symbol && ss.contains t.text

def ofKind (k : TokenKind) : Rule N := terminal fun t => t.kind = k

/-- A word regardless of the case of its letters. -/
def isWordIn (ws : List String) (t : Token) : Bool :=
  t.kind = .word && ws.contains (String.ofList (t.text.toList.map Char.toLower))

def word (w : String) : Rule N := terminal (isWordIn [w])

def wordIn (ws : List String) : Rule N := terminal (isWordIn ws)

/-- A word that is none of these. -/
def wordNotIn (ws : List String) : Rule N :=
  terminal fun t => t.kind = .word && !isWordIn ws t

def anyWord : Rule N := ofKind .word

/-- A rule at least once, with commas between. -/
def commas (r : Rule N) : Rule N := seq r (many (seq (symbol ",") r))

/-- A rule any number of times, with commas between and perhaps one at the end. -/
def commaList (r : Rule N) : Rule N := optional (seq (commas r) (optional (symbol ",")))

end Rule

end TranslationAudit.Php
