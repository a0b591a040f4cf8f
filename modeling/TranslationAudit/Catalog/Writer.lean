import TranslationAudit.Catalog.Addition
import TranslationAudit.Catalog.Edit
import TranslationAudit.Catalog.Store

/-! # Adding and deleting units

* `Addition.unit`: the unit that an addition becomes.
* `writeAdditions`: adds units to their catalogs; units that exist are never replaced.
* `deleteEntries`: removes entries from their catalogs.

A catalog that cannot be read or written is a failure of its own additions or entries only.
-/

namespace TranslationAudit.Catalog

/-- The state of a new unit. -/
structure UnitState where
  state : Option String := none
  qualifier : Option String := none
deriving DecidableEq, Inhabited

/-- A state from texts, where blank ones count as absent. -/
def UnitState.ofTexts (state qualifier : Option String) : UnitState :=
  ⟨state.bind Text.nonBlank?, qualifier.bind Text.nonBlank?⟩

/-- How units are written. -/
structure WriterSettings where
  layout : Layout := {}
  state : UnitState := {}
  /-- The state of units with a generated target; what it leaves open is taken from `state`. -/
  generatedState : UnitState := {}
  /-- Whether units with a generated target get a note about its provenance. -/
  generatedNotes : Bool := false
  /-- Whether files are left as they are. -/
  dryRun : Bool := false
deriving DecidableEq, Inhabited

/-- The files after a run, and what happened to them. -/
structure WriteOutcome where
  tree : FileTree
  /-- The catalogs that were changed, or would have been. -/
  touched : List String := []
  failures : List Error := []

namespace WriteOutcome

def fail (o : WriteOutcome) (e : Error) : WriteOutcome := { o with failures := o.failures ++ [e] }

def record (o : WriteOutcome) (path : String) : WriteOutcome :=
  if o.touched.any fun p => Path.components p = Path.components path then o
  else { o with touched := o.touched ++ [path] }

/-- Writes a changed catalog, unless files are left as they are. -/
def finish (o : WriteOutcome) (settings : WriterSettings) (path : String) (d : Document)
    (h : Header) : WriteOutcome :=
  if settings.dryRun then o.record path
  else
    match store o.tree path (render settings.layout d h) with
    | .ok tree => { o with tree }.record path
    | .error e => o.fail e

end WriteOutcome

/-! ## Units for additions -/

def noteAuthor : String := "l10nguy"

/-- A named part of a provenance, unless it is empty. -/
def notePart (name : String) (value : Option String) : List String :=
  (value.filter fun v => !v.isEmpty).toList.map fun v => name ++ ":" ++ v

/-- The note about a provenance, unless nothing is known. -/
def Provenance.note? (p : Provenance) : Option Note :=
  let parts := notePart "provider" p.provider ++ notePart "model" p.model ++
    notePart "generated" p.generatedAt
  if parts.isEmpty then none else some ⟨some noteAuthor, " ".intercalate parts⟩

namespace Addition

def state (settings : WriterSettings) (a : Addition) : UnitState :=
  if a.isGenerated then
    ⟨settings.generatedState.state.or settings.state.state,
      settings.generatedState.qualifier.or settings.state.qualifier⟩
  else settings.state

def notes (settings : WriterSettings) (a : Addition) : List Note :=
  if settings.generatedNotes then (a.provenance.bind Provenance.note?).toList else []

/-- The attributes for a state other than the state itself. -/
def qualifierAttributes (s : UnitState) : List (String × String) :=
  s.qualifier.toList.map fun q => ("state-qualifier", q)

def translatedUnit (settings : WriterSettings) (a : Addition) : TransUnit :=
  let s := a.state settings
  { source := some a.source
    target := some a.target
    state := s.state
    targetAttributes := qualifierAttributes s
    hasSource := true
    hasTarget := !a.target.isEmpty
    notes := a.notes settings }

/-- The unit for a catalog in the source language. Its only text is the translation, if there is
one. -/
def sourceUnit (settings : WriterSettings) (a : Addition) : TransUnit :=
  let s := a.state settings
  { source := some (if a.target.isEmpty then a.source else a.target)
    sourceAttributes := (s.state.toList.map fun v => ("state", v)) ++ qualifierAttributes s
    hasSource := true
    notes := a.notes settings }

/-- The unit that an addition becomes in a catalog with or without translations. -/
def unit (settings : WriterSettings) (writesTarget : Bool) (a : Addition) : TransUnit :=
  if writesTarget then a.translatedUnit settings else a.sourceUnit settings

def location (a : Addition) : Location := ⟨a.locale, a.key.package, a.key.source⟩

end Addition

/-! ## Writing -/

def Document.insertAll (settings : WriterSettings) (writesTarget : Bool) (d : Document)
    (additions : List Addition) : Document × Bool :=
  additions.foldl (fun (d, changed) a =>
    let (d, inserted) := d.insert a.key.id (a.unit settings writesTarget)
    (d, changed || inserted)) (d, false)

/-- Removes identifiers from a document, and tells whether one of them was there. -/
def Document.removeAll (d : Document) (ids : List String) : Document × Bool :=
  ids.foldl (fun (d, changed) id =>
    let (d, removed) := d.remove id
    (d, changed || removed)) (d, false)

/-- Where the catalogs of additions lie: known ones where the index has them, others where new
catalogs are made. -/
def additionPath? (tree : FileTree) (base : String) (paths : List String) (index : Index)
    (l : Location) : Option String :=
  ((index.file? l).map File.path).or (newPath? tree.isDirectory base paths l)

def writeTo (settings : WriterSettings) (o : WriteOutcome) (path : String) (l : Location)
    (additions : List Addition) : WriteOutcome :=
  match Document.load o.tree path with
  | .error e => o.fail e
  | .ok d =>
    let h := Header.resolve d.metadata l.package l.locale
    let (d, changed) := d.insertAll settings (h.writesTarget l.locale) additions
    if changed then o.finish settings path d h else o

/-- Adds units to their catalogs, one catalog after the other. Additions for which there is no
place are left out. -/
def writeAdditions (settings : WriterSettings) (base : String) (paths : List String)
    (index : Index) (tree : FileTree) (additions : List Addition) : WriteOutcome :=
  (Dict.groupBy Addition.location additions).entries.foldl (fun o (l, group) =>
    match additionPath? o.tree base paths index l with
    | none => o
    | some path => writeTo settings o path l group) { tree }

def deleteFrom (settings : WriterSettings) (o : WriteOutcome) (path : String) (first : Entry)
    (ids : List String) : WriteOutcome :=
  match Document.load o.tree path with
  | .error e => o.fail e
  | .ok d =>
    let h := Header.resolve d.metadata first.key.package first.locale
    let (d, changed) := d.removeAll ids
    if changed then o.finish settings path d h else o

/-- Removes entries from their catalogs, one catalog after the other. Catalogs without a file are
left out. -/
def deleteEntries (settings : WriterSettings) (tree : FileTree) (entries : List Entry) :
    WriteOutcome :=
  (Dict.groupBy (fun e => Path.components e.file) entries).values.foldl (fun o group =>
    match group with
    | [] => o
    | first :: _ =>
      if o.tree.isFile first.file then
        deleteFrom settings o first.file first (group.map fun e => e.key.id)
      else o) { tree }

end TranslationAudit.Catalog
