import TranslationAudit.Collection.Dict
import TranslationAudit.Collection.SortedMap
import TranslationAudit.Message.Key

/-! # References and their index

* `Reference`: one place in the source tree that uses a message.
* `ReferenceIndex`: the references of a project by key. The first reference of a key is its
  canonical one, the later ones are its duplicates, in the order in which they were added.
-/

namespace TranslationAudit

/-- The kinds of source file in which references stand. -/
inductive SourceFormat where
  | php
  | fusion
  | yaml
deriving DecidableEq, Inhabited

def SourceFormat.name : SourceFormat → String
  | .php => "php"
  | .fusion => "fusion"
  | .yaml => "yaml"

/-- One use of a message. -/
structure Reference where
  key : Key
  format : SourceFormat
  file : String
  /-- The line of the call or label, counted from 1. -/
  line : Nat
  fallback : Option String := none
  /-- The expression passed for each placeholder. -/
  placeholders : Dict String String := .empty
  isPlural : Bool := false
  /-- The block of the node type around a schema label, as written. -/
  schemaContext : Option String := none
deriving DecidableEq, Inhabited

/-- The fallback, unless it is blank. -/
def Reference.fallbackText (r : Reference) : Option String :=
  r.fallback.filter fun f => !Text.isAllBlank f

/-- Where a reference stands, as `file:line`. -/
def Reference.position (r : Reference) : String := r.file ++ ":" ++ toString r.line

/-! ## The index -/

/-- The references of a project by key, and how many were added. -/
structure ReferenceIndex where
  canonical : SortedMap Key Reference := .empty
  /-- The references that were added after the canonical one of their key. -/
  later : SortedMap Key (List Reference) := .empty
  totalCount : Nat := 0
deriving DecidableEq

namespace ReferenceIndex

def empty : ReferenceIndex := {}

def add (index : ReferenceIndex) (r : Reference) : ReferenceIndex :=
  if index.canonical.contains r.key then
    { index with
      later := index.later.alter r.key fun rs => rs.getD [] ++ [r]
      totalCount := index.totalCount + 1 }
  else
    { index with
      canonical := index.canonical.insert r.key r
      totalCount := index.totalCount + 1 }

def ofReferences (rs : List Reference) : ReferenceIndex := rs.foldl add empty

/-- The canonical references, ordered by key. -/
def references (index : ReferenceIndex) : List Reference := index.canonical.values

def get? (index : ReferenceIndex) (k : Key) : Option Reference := index.canonical.get? k

def contains (index : ReferenceIndex) (k : Key) : Bool := index.canonical.contains k

/-- The keys that have duplicates, with them. -/
def duplicates (index : ReferenceIndex) : List (Key × List Reference) := index.later.entries

/-- The canonical reference of a key and its duplicates. -/
def allFor (index : ReferenceIndex) (k : Key) : List Reference :=
  (index.canonical.get? k).toList ++ (index.later.get? k).getD []

def uniqueCount (index : ReferenceIndex) : Nat := index.canonical.size

def duplicateCount (index : ReferenceIndex) : Nat := index.later.sum List.length

end ReferenceIndex

end TranslationAudit
