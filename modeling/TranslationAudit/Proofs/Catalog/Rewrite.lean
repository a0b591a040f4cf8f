import TranslationAudit.Proofs.Catalog.Format
import TranslationAudit.Proofs.Catalog.Kept

/-! # Rewritten files

* `Rewrite`: what is done to the file of a catalog; `Rewrite.run_cases`: the file is left as it was,
  or the changed catalog is written.
* `TextKept`: what is left of the text of a file.
* `run_keeps`: a file that was rewritten keeps its units but those that were deleted.
* `loses_translations`: texts within other elements, files and bodies are lost.
-/

namespace TranslationAudit.Catalog

open Markup (Element Node)

/-- What is done to the file of a catalog. -/
inductive Rewrite where
  | format (layout : Layout) (package locale : String)
  | add (settings : WriterSettings) (location : Location) (additions : List Addition)
  | delete (settings : WriterSettings) (first : Entry) (ids : List String)

namespace Rewrite

/-- The files after a rewrite of the catalog at a path. -/
def run (t : FileTree) (path : String) : Rewrite → FileTree
  | format layout package locale =>
    ((Catalog.format t layout path package locale true).toOption.map Prod.fst).getD t
  | add settings location additions => (writeTo settings { tree := t } path location additions).tree
  | delete settings first ids => (deleteFrom settings { tree := t } path first ids).tree

def layout : Rewrite → Layout
  | format layout _ _ => layout
  | add settings _ _ => settings.layout
  | delete settings _ _ => settings.layout

/-- The header that a catalog is written with. -/
def header (d : Document) : Rewrite → Header
  | format _ package locale => .resolve d.metadata package locale
  | add _ location _ => .resolve d.metadata location.package location.locale
  | delete _ first _ => .resolve d.metadata first.key.package first.locale

/-- The catalog that is written. -/
def apply (d : Document) : Rewrite → Document
  | format .. => d
  | r@(add settings location additions) =>
    (d.insertAll settings ((r.header d).writesTarget location.locale) additions).1
  | delete _ _ ids => (d.removeAll ids).1

/-- The identifiers that are deleted. -/
def deleted : Rewrite → List String
  | delete _ _ ids => ids
  | _ => []

theorem leaves_apply {d : Document} (h : d.Sound) (r : Rewrite) :
    (r.apply d).Sound ∧ d.Leaves r.deleted (r.apply d) := by
  cases r with
  | format layout package locale => exact ⟨h, .refl [] d⟩
  | add settings location additions => exact insertAll_leaves h settings _ additions
  | delete settings first ids => exact removeAll_leaves h ids

theorem tree_finish (o : WriteOutcome) (settings : WriterSettings) (path : String) (d : Document)
    (header : Header) :
    (o.finish settings path d header).tree = o.tree ∨
      store o.tree path (Catalog.render settings.layout d header) =
        .ok (o.finish settings path d header).tree := by
  have hrecord (o : WriteOutcome) : (o.record path).tree = o.tree := by
    rw [WriteOutcome.record]
    split <;> rfl
  rw [WriteOutcome.finish]
  split
  · exact .inl (hrecord o)
  · cases store o.tree path (Catalog.render settings.layout d header) with
    | error e => exact .inl rfl
    | ok t => exact .inr (congrArg Except.ok (hrecord { o with tree := t }).symm)

variable {t : FileTree} {path text : String} {d : Document}

/-- A rewrite leaves the files as they were, or writes the changed catalog. -/
theorem run_cases (hread : t.read path = .ok text) (hparse : Document.parse path text = .ok d)
    (r : Rewrite) :
    r.run t path = t ∨
      store t path (render r.layout (r.apply d) (r.header d)) = .ok (r.run t path) := by
  have hload : Document.load t path = .ok d := by
    rw [Document.load, hread]
    exact hparse
  cases r with
  | format layout package locale =>
    rw [run, format_eq hread hparse]
    split
    · exact .inl rfl
    · simp only [if_true, Rewrite.layout, apply, header]
      cases store t path (render layout d (.resolve d.metadata package locale)) with
      | error e => exact .inl rfl
      | ok t' => exact .inr rfl
  | add settings location additions =>
    rw [run, writeTo]
    simp only [hload]
    split
    · exact tree_finish { tree := t } settings path _ _
    · exact .inl rfl
  | delete settings first ids =>
    rw [run, deleteFrom]
    simp only [hload]
    split
    · exact tree_finish { tree := t } settings path _ _
    · exact .inl rfl

end Rewrite

/-! ## What is left of the text of a file -/

/-- What is left of the text of a file after the deletion of units and forms. Only the first file
element is written anew. -/
def TextKept (deleted : List String) (text text' : String) : Prop :=
  ∀ root file, Markup.parse text = .ok root →
    root.elements.find? (·.name = "file") = some file →
    ∃ root' file', Markup.parse text' = .ok root' ∧
      root'.elements.find? (·.name = "file") = some file' ∧ FileKept deleted file file'

/-- A file that was rewritten keeps its units but those that were deleted. -/
theorem run_keeps {t : FileTree} {path text : String} {d : Document}
    (hread : t.read path = .ok text) (hparse : Document.parse path text = .ok d)
    (hnamed : Document.NamesIn text) (r : Rewrite) :
    ∃ text', (r.run t path).read path = .ok text' ∧
      (text' = text ∨ TextKept r.deleted text text') := by
  rcases r.run_cases hread hparse with hsame | hstore
  · rw [hsame]
    exact ⟨text, hread, .inl rfl⟩
  · refine ⟨_, FileTree.read_save hread (save_of_store hstore), .inr ?_⟩
    intro root file hroot hfile
    obtain ⟨root', hroot', hd⟩ := Document.parse_eq_ok hparse
    rw [hroot] at hroot'
    cases hroot'
    have htidy := Markup.parse_tidy hroot
    have hrootNamed := hnamed root hroot
    obtain ⟨hsound, hleaves⟩ := r.leaves_apply (Document.ofRoot?_sound hd htidy hrootNamed).1
    refine ⟨_, (r.apply d).fileElement r.layout (r.header d), hsound.parse_render r.layout _, ?_,
      fileKept hfile hd htidy hrootNamed hleaves hsound r.layout _⟩
    rw [Document.elements_root]
    rfl

/-- Of a group with two forms one is deleted, and the other has two targets. -/
theorem run_keeps_form :
    ∃ text', ((Rewrite.delete {} default ["a[0]"]).run (.put .empty ["app.xlf"]
          (.text ("<x><file><body><group id='a' restype='x-gettext-plurals'>" ++
            "<trans-unit id='a[0]'/><trans-unit id='a[1]'><target/><target>B</target>" ++
            "</trans-unit></group></body></file></x>"))) "/app.xlf").read "/app.xlf" = .ok text' ∧
      TextKept ["a[0]"] ("<x><file><body><group id='a' restype='x-gettext-plurals'>" ++
        "<trans-unit id='a[0]'/><trans-unit id='a[1]'><target/><target>B</target>" ++
        "</trans-unit></group></body></file></x>") text' := by
  obtain ⟨text, htext⟩ : ∃ text, text =
      "<x><file><body><group id='a' restype='x-gettext-plurals'>" ++
        "<trans-unit id='a[0]'/><trans-unit id='a[1]'><target/><target>B</target>" ++
        "</trans-unit></group></body></file></x>" := ⟨_, rfl⟩
  rw [← htext]
  have hread : (FileTree.put .empty ["app.xlf"] (.text text)).read "/app.xlf" = .ok text := by
    rw [htext]
    decide +kernel
  have hreadable : Document.isReadable text = true := by
    rw [htext]
    decide +kernel
  have hchanged : ((Rewrite.delete {} default ["a[0]"]).run
      (.put .empty ["app.xlf"] (.text text)) "/app.xlf").read "/app.xlf" ≠ .ok text := by
    rw [htext]
    decide +kernel
  obtain ⟨d, hd, hnamed⟩ := Document.exists_parse "/app.xlf" hreadable
  obtain ⟨text', hread', hkept⟩ := run_keeps hread hd hnamed (.delete {} default ["a[0]"])
  refine ⟨text', hread', hkept.resolve_left ?_⟩
  rintro rfl
  exact hchanged hread'

/-! ### What is lost -/

mutual

/-- The units of a tree, at any depth. -/
def unitsIn : Node → List Element
  | .element name attributes children =>
    (if name = "trans-unit" then [⟨name, attributes, children⟩] else []) ++ unitsInAll children
  | _ => []

def unitsInAll : List Node → List Element
  | [] => []
  | n :: ns => unitsIn n ++ unitsInAll ns

end

/-- The nodes within each child of a name. -/
def contentsOf (name : String) (e : Element) : List (List Node) :=
  (e.elements.filter (·.name = name)).map Element.children

/-- Whether all units of a text but deleted ones are in another text with the same contents. -/
def TranslationsKept (deleted : List String) (text text' : String) : Prop :=
  ∀ root, Markup.parse text = .ok root → ∃ root', Markup.parse text' = .ok root' ∧
    ∀ e ∈ unitsIn root.toNode, ∀ id, e.attribute? "id" = some id → id ∉ deleted →
      ∃ e' ∈ unitsIn root'.toNode, e'.attribute? "id" = some id ∧
        contentsOf "source" e' = contentsOf "source" e ∧
        contentsOf "target" e' = contentsOf "target" e

/-- The identifier of a unit, and for each of its sources the number and the texts of its nodes. -/
def unitShape (e : Element) : Option String × List (Nat × List String) :=
  (e.attribute? "id", (contentsOf "source" e).map fun ns => (ns.length, ns.filterMap Node.text?))

def shapesIn (root : Element) : List (Option String × List (Nat × List String)) :=
  (unitsIn root.toNode).map unitShape

theorem TranslationsKept.shape_mem {text text' : String} (h : TranslationsKept [] text text')
    {root root' : Element} (hroot : Markup.parse text = .ok root)
    (hroot' : Markup.parse text' = .ok root')
    {shape : Option String × List (Nat × List String)} (hmem : shape ∈ shapesIn root)
    (hid : shape.1.isSome = true) : shape ∈ shapesIn root' := by
  obtain ⟨root'', hsame, hkept⟩ := h root hroot
  rw [hroot'] at hsame
  cases hsame
  obtain ⟨e, he, rfl⟩ := List.mem_map.1 hmem
  obtain ⟨id, hid⟩ := Option.isSome_iff_exists.1 hid
  obtain ⟨e', he', hid', hsource, -⟩ := hkept e he id hid (by simp)
  have hshape : unitShape e' = unitShape e := by
    rw [unitShape, unitShape, hid', hsource]
    exact congrArg (·, _) hid.symm
  rw [← hshape]
  exact List.mem_map_of_mem he'

/-- How texts are rewritten here. -/
def formatting : Rewrite := .format ⟨2, false⟩ "app" "de"

/-- A catalog of which a unit does not keep its contents. -/
def Loses (text : String) : Prop :=
  Document.NamesIn text ∧ ∃ d, Document.parse "app.xlf" text = .ok d ∧
    ¬TranslationsKept formatting.deleted text
      (render formatting.layout (formatting.apply d) (formatting.header d))

/-- Whether a shape of a catalog is missing in what is written. -/
def losesShape (text : String) : Bool :=
  !Text.isAllBlank text && (Markup.parse text).toOption.any fun root =>
    decide root.toNode.Named && (Document.ofRoot? root).any fun d =>
      (shapesIn root).any fun shape => shape.1.isSome &&
        !(shapesIn (d.root formatting.layout (formatting.header d))).contains shape

theorem loses_of_losesShape {text : String} (h : losesShape text = true) : Loses text := by
  obtain ⟨hblank, hparse⟩ := (Bool.and_eq_true _ _).mp h
  obtain ⟨root, hroot, hloses⟩ := (Option.any_eq_true _ _).1 hparse
  obtain ⟨hnamed, hd⟩ := (Bool.and_eq_true _ _).mp hloses
  obtain ⟨d, hd, hshapes⟩ := (Option.any_eq_true _ _).1 hd
  have hroot := eq_ok_of_toOption hroot
  have hnamed := of_decide_eq_true hnamed
  refine ⟨?_, d, Document.parse_of_root (by simpa using hblank) hroot hd "app.xlf", ?_⟩
  · intro other hother
    rw [hroot] at hother
    cases hother
    exact hnamed
  · intro hkept
    have hsound := (Document.ofRoot?_sound hd (Markup.parse_tidy hroot) hnamed).1
    obtain ⟨shape, hmem, hlost⟩ := List.any_eq_true.1 hshapes
    obtain ⟨hid, hnew⟩ := (Bool.and_eq_true _ _).mp hlost
    have hold := hkept.shape_mem hroot (hsound.parse_render _ _) hmem hid
    simp [hold] at hnew

/-- What is lost: what stands within an element of a source, in a second file, in a second body and
in a source before another, and the spelling of a form's identifier. -/
theorem loses_translations :
    Loses ("<x><file><body><trans-unit id='a'><source>Hello <g>world</g></source></trans-unit>" ++
        "</body></file></x>") ∧
      Loses ("<x><file/><file><body><trans-unit id='a'><source>Hello</source></trans-unit>" ++
        "</body></file></x>") ∧
      Loses ("<x><file><body/><body><trans-unit id='a'><source>Hello</source></trans-unit>" ++
        "</body></file></x>") ∧
      Loses ("<x><file><body><trans-unit id='a'><source>Hello</source><source/></trans-unit>" ++
        "</body></file></x>") ∧
      Loses ("<x><file><body><group id='a' restype='x-gettext-plurals'><trans-unit id='a[01]'/>" ++
        "</group></body></file></x>") := by
  refine ⟨?_, ?_, ?_, ?_, ?_⟩
  all_goals
    apply loses_of_losesShape
    decide +kernel

end TranslationAudit.Catalog
