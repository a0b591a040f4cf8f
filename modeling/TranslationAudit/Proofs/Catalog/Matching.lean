import Mathlib.Data.List.Forall2
import TranslationAudit.Proofs.Catalog.RoundTrip

/-! # Catalogs that say the same

* `Node.SameForm`: nodes that are written the same way wherever they stand.
* `TransUnit.Matches`, `PluralGroup.Matches`, `Document.Matches`: the same texts, attributes and
  parts in the same order.
* `Document.matches_reread`: what stands for a catalog after writing and reading matches it.
* `Metadata.KeptIn`: metadata of which all that is known is kept.
-/

namespace TranslationAudit

/-- Nodes that are written the same way wherever they stand. -/
def Markup.Node.SameForm (m n : Node) : Prop :=
  ∀ tab level, m.render tab level = n.render tab level

theorem Markup.Node.SameForm.of_blocks {m n : Node} (h : m.blocks = n.blocks) : m.SameForm n := by
  intro tab level
  rw [render_eq, render_eq, h]

namespace Catalog

open Markup (Node)

/-! ## What matches -/

/-- Entries with the same keys in the same order and with values in a relation. -/
def EntriesMatch {κ ν : Type} (r : ν → ν → Prop) : List (κ × ν) → List (κ × ν) → Prop :=
  List.Forall₂ fun e f => e.1 = f.1 ∧ r e.2 f.2

theorem entriesMatch_map {κ ν : Type} {r : ν → ν → Prop} {f : κ → ν → ν} {es : List (κ × ν)}
    (h : ∀ k v, (k, v) ∈ es → r v (f k v)) :
    EntriesMatch r es (es.map fun e => (e.1, f e.1 e.2)) := by
  rw [EntriesMatch, List.forall₂_map_right_iff, List.forall₂_same]
  rintro ⟨k, v⟩ he
  exact ⟨rfl, h k v he⟩

inductive UnitChild.Matches : UnitChild → UnitChild → Prop where
  | source : Matches .source .source
  | target : Matches .target .target
  | foreign {m n : Node} : m.SameForm n → Matches (.foreign m) (.foreign n)

/-- The parts of a unit that records parts, and otherwise a source. -/
def TransUnit.shownChildren (u : TransUnit) : List UnitChild :=
  if u.children.isEmpty then [.source] else u.children

/-- Units with the same texts, state, attributes and parts. An absent source counts as empty. -/
structure TransUnit.Matches (u v : TransUnit) : Prop where
  source : v.source.getD "" = u.source.getD ""
  target : v.target = u.target
  state : v.state = u.state
  attributes : v.attributes = u.attributes
  sourceAttributes : v.sourceAttributes = u.sourceAttributes
  targetAttributes : v.targetAttributes = u.targetAttributes
  children : List.Forall₂ UnitChild.Matches u.shownChildren v.children

inductive GroupChild.Matches : GroupChild → GroupChild → Prop where
  | form (i : Nat) : Matches (.form i) (.form i)
  | foreign {m n : Node} : m.SameForm n → Matches (.foreign m) (.foreign n)

/-- Groups with the same attributes, forms and parts. -/
structure PluralGroup.Matches (g h : PluralGroup) : Prop where
  restype : h.restype = g.restype
  attributes : h.attributes = g.attributes
  forms : EntriesMatch TransUnit.Matches g.forms.entries h.forms.entries
  children : List.Forall₂ GroupChild.Matches g.children h.children

inductive CatalogUnit.Matches : CatalogUnit → CatalogUnit → Prop where
  | single {u v : TransUnit} : u.Matches v → Matches (.single u) (.single v)
  | plural {g h : PluralGroup} : g.Matches h → Matches (.plural g) (.plural h)

inductive BodyNode.Matches : BodyNode → BodyNode → Prop where
  | unit (id : String) : Matches (.unit id) (.unit id)
  | foreign {m n : Node} : m.SameForm n → Matches (.foreign m) (.foreign n)

/-- Catalogs with the same units, body and parts of the file beside it. -/
structure Document.Matches (d d' : Document) : Prop where
  units : EntriesMatch CatalogUnit.Matches d.units.entries d'.units.entries
  body : List.Forall₂ BodyNode.Matches d.body d'.body
  fileAttributes : d'.fileAttributes = d.fileAttributes
  fileChildren : List.Forall₂ Node.SameForm d.fileChildren d'.fileChildren

/-- An attribute that is kept if it is there and not empty. -/
def Kept (s t : Option String) : Prop := ∀ v, s = some v → v ≠ "" → t = some v

/-- Metadata of which all that is known is kept. -/
structure Metadata.KeptIn (m m' : Metadata) : Prop where
  productName : Kept m.productName m'.productName
  sourceLanguage : Kept m.sourceLanguage m'.sourceLanguage
  targetLanguage : Kept m.targetLanguage m'.targetLanguage
  extractedFrom : Kept m.extractedFrom m'.extractedFrom
  datatype : Kept m.datatype m'.datatype

/-! ## What stands for a catalog matches it -/

theorem sameForm_reread {n : Node} (h : n.Solid) (tab level : Nat) :
    n.SameForm (n.reread tab level) :=
  .of_blocks (h.tidy.blocks_reread h.named tab level).symm

theorem TransUnit.matches_reread {u : TransUnit} (h : u.Sound) (hread : u.AsRead)
    (tab level : Nat) : u.Matches (u.reread tab level) := by
  cases hempty : u.children.isEmpty with
  | true =>
    have hsource : u.source = none := by
      have hsome := hread.source
      rw [List.isEmpty_iff.1 hempty] at hsome
      simpa using hsome
    rw [reread_of_isEmpty hempty]
    refine ⟨?_, rfl, rfl, rfl, rfl, rfl, ?_⟩
    · rw [hsource]
      rfl
    · rw [shownChildren, if_pos hempty]
      exact .cons .source .nil
  | false =>
    rw [reread_of_not_isEmpty hempty]
    refine ⟨rfl, rfl, rfl, rfl, rfl, rfl, ?_⟩
    rw [shownChildren, if_neg (by simp [hempty]), List.forall₂_map_right_iff, List.forall₂_same]
    intro c hc
    cases c with
    | source => exact .source
    | target => exact .target
    | foreign n => exact .foreign (sameForm_reread (h.solid n hc) tab (level + 1))

theorem PluralGroup.matches_reread {id : String} {g : PluralGroup} (h : g.Sound id)
    (hread : g.AsRead) (tab : Nat) : g.Matches (g.reread tab false) := by
  refine ⟨h.restype.symm, rfl, ?_, ?_⟩
  · rw [forms_reread h.ascending]
    exact entriesMatch_map fun i u hu =>
      TransUnit.matches_reread (h.forms i u hu) (hread.form hu) tab 4
  · obtain ⟨ps, hnodup, hg, -⟩ := hread
    have hwritten : g.written false = ps := by
      rw [hg]
      exact written_ofParts hnodup g.attributes
    have hchildren : g.children = ps.map GroupChild.ofPart := by
      rw [hg]
      rfl
    rw [reread, rereadParts, hwritten, ofParts, hchildren, List.map_map,
      List.forall₂_map_left_iff, List.forall₂_map_right_iff, List.forall₂_same]
    intro p hp
    cases p with
    | keyed i u => exact .form i
    | foreign n =>
      have hn : .foreign n ∈ g.children := hchildren ▸ List.mem_map_of_mem hp
      exact .foreign (sameForm_reread (h.solid n hn) tab 4)

theorem CatalogUnit.matches_reread {id : String} {u : CatalogUnit} (h : u.Sound id)
    (hread : u.AsRead) (tab : Nat) : u.Matches (u.reread tab false) := by
  cases u with
  | single u => exact .single (TransUnit.matches_reread h hread tab 3)
  | plural g => exact .plural (PluralGroup.matches_reread h hread tab)

theorem Document.matches_reread {d : Document} (h : d.Sound) (hread : d.AsRead)
    {layout : Layout} (hlayout : layout.orderById = false) (header : Header) :
    d.Matches (d.reread layout header) := by
  have hunit {id : String} {u : CatalogUnit} (hu : (id, u) ∈ d.units.entries) : u.AsRead :=
    hread.unit hu
  obtain ⟨ps, hstable, hunits, hbody, -⟩ := hread
  -- unsorted, the parts are written in the order they were read in
  have hwritten : d.written layout = ps := written_eq hstable.nodup.1 hunits hbody hlayout
  refine ⟨?_, ?_, rfl, ?_⟩
  · have hentries : (d.reread layout header).units.entries = d.units.entries.map fun e =>
        (e.1, e.2.reread layout.tabWidth false) := by
      rw [reread, rereadParts, hwritten, hlayout, hunits]
      simp [addParts, rereadHead, Dict.empty]
    rw [hentries]
    exact entriesMatch_map fun id u hu =>
      CatalogUnit.matches_reread (h.units id u hu) (hunit hu) layout.tabWidth
  · have hparts : (d.reread layout header).body = (d.rereadParts layout).map BodyNode.ofPart := by
      simp [reread, addParts, rereadHead]
    rw [hparts, rereadParts, hwritten, hbody, List.map_map, List.forall₂_map_left_iff,
      List.forall₂_map_right_iff, List.forall₂_same]
    intro p hp
    cases p with
    | keyed id u => exact .unit id
    | foreign n =>
      have hn : .foreign n ∈ d.body := hbody ▸ List.mem_map_of_mem hp
      exact .foreign (sameForm_reread (h.solid n hn) layout.tabWidth 3)
  · have hchildren : (d.reread layout header).fileChildren =
        d.fileChildren.map (Node.reread layout.tabWidth 2) := rfl
    rw [hchildren, List.forall₂_map_right_iff, List.forall₂_same]
    intro n hn
    exact sameForm_reread (h.fileChildren n hn).1 layout.tabWidth 2

/-! ## Metadata -/

theorem filter_of_ne_empty {v : String} (h : v ≠ "") :
    (some v).filter (fun v => !v.isEmpty) = some v := by
  simp [h]

theorem Metadata.keptIn_resolve (m : Metadata) (package locale : String) :
    m.KeptIn (Header.resolve m package locale).metadata := by
  constructor <;> intro v hv hne <;> simp only [Header.metadata, Header.resolve, hv]
  case productName => rw [filter_of_ne_empty hne, Option.getD_some]
  case sourceLanguage => rw [filter_of_ne_empty hne, Option.getD_some]
  case targetLanguage => rw [Header.target?, Option.some_or, filter_of_ne_empty hne]
  case extractedFrom => rfl
  case datatype => rfl

/-- The text of a catalog that was read is read as a catalog that matches it. If the header was
resolved from the metadata, these are kept. -/
theorem parse_render_matches {path text : String} {d : Document}
    (hparse : Document.parse path text = .ok d) (hnamed : Document.NamesIn text)
    (tab : Nat) (header : Header) :
    ∃ d', Document.parse path (render ⟨tab, false⟩ d header) = .ok d' ∧ d.Matches d' ∧
      ∀ package locale, header = .resolve d.metadata package locale →
        d.metadata.KeptIn d'.metadata := by
  obtain ⟨h, hread⟩ := Document.parse_sound hparse hnamed
  refine ⟨d.reread ⟨tab, false⟩ header, Document.parse_render h hread rfl path header,
    Document.matches_reread h hread rfl header, ?_⟩
  intro package locale hheader
  have hmetadata : (d.reread ⟨tab, false⟩ header).metadata = header.metadata := rfl
  rw [hmetadata, hheader]
  exact d.metadata.keptIn_resolve package locale

/-- An empty unit, the forms of a group and a product without a name. -/
theorem parse_render_matches_forms :
    ∃ d d', Document.parse "app.xlf" ("<x><file datatype='php'><body><group id='a' " ++
        "restype='x-gettext-plurals'><trans-unit id='a[01]'/></group></body></file></x>") = .ok d ∧
      Document.parse "app.xlf" (render ⟨2, false⟩ d (.resolve d.metadata "app" "de")) = .ok d' ∧
      d.Matches d' ∧ d.metadata.KeptIn d'.metadata := by
  have hreadable : Document.isReadable ("<x><file datatype='php'><body><group id='a' " ++
      "restype='x-gettext-plurals'><trans-unit id='a[01]'/></group></body></file></x>") = true := by
    decide +kernel
  obtain ⟨d, hd, hnamed⟩ := Document.exists_parse "app.xlf" hreadable
  obtain ⟨d', hd', hmatches, hkept⟩ := parse_render_matches hd hnamed 2
    (.resolve d.metadata "app" "de")
  exact ⟨d, d', hd, hd', hmatches, hkept "app" "de" rfl⟩

end Catalog

end TranslationAudit
