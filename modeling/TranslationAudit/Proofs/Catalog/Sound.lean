import TranslationAudit.Catalog.Read
import TranslationAudit.Proofs.Catalog.Layout
import TranslationAudit.Proofs.Collection.Dict
import TranslationAudit.Proofs.Collection.SortedMap
import TranslationAudit.Proofs.Message.PluralForm

/-! # Catalogs that can be written

* `AttributesBeside`: attributes that do not meet those that the program writes itself.
* `TransUnit.Sound`, `PluralGroup.Sound`, `Document.Sound`: what is kept of a file can be written.
* `Document.Sound.parse_render`: the text of a sound catalog is read as a tree again.
-/

namespace TranslationAudit

namespace Markup

/-- A node that keeps its place: no text, and fit to be written and read back. -/
structure Node.Solid (n : Node) : Prop where
  notText : n.isText = false
  tidy : n.Tidy
  named : n.Named

theorem Node.Solid.sound {n : Node} (h : n.Solid) : ∀ b ∈ n.blocks, b.Sound :=
  fun b hb => (h.tidy.block h.named b hb).1

end Markup

namespace Catalog

open Markup (AttributesNamed Block Element Node declaration isName joinLines)

/-! ## Attributes -/

/-- Attributes with names of their own beside given ones. -/
structure AttributesBeside (known : List String) (attributes : List (String × String)) : Prop
    extends AttributesNamed attributes where
  others : ∀ a ∈ attributes, a.1 ∉ known

namespace AttributesBeside

variable {known : List String} {attributes : List (String × String)}

theorem nil : AttributesBeside known [] := ⟨.nil, by simp⟩

theorem of_except {e : Element} (h : AttributesNamed e.attributes) :
    AttributesBeside known (e.attributesExcept known) where
  toAttributesNamed := h.filter _
  others a ha := by
    have hnot := (List.mem_filter.1 ha).2
    simpa using hnot

variable (h : AttributesBeside known attributes)
variable {own : List (String × String)} (howned : AttributesNamed own)
variable (hknown : ∀ a ∈ own, a.1 ∈ known)
include h hknown

theorem merge : mergeAttributes own attributes = own ++ attributes := by
  refine mergeAttributes_eq_append h.nodup ?_
  intro a ha hm
  obtain ⟨b, hb, hname⟩ := List.mem_map.1 hm
  exact h.others a ha (hname ▸ hknown b hb)

include howned in
theorem named_merge : AttributesNamed (mergeAttributes own attributes) := by
  rw [h.merge hknown]
  refine howned.append h.toAttributesNamed ?_
  intro a ha b hb heq
  exact h.others b hb (heq ▸ hknown a ha)

theorem except_merge (name : String) (children : List Node) :
    Element.attributesExcept ⟨name, mergeAttributes own attributes, children⟩ known =
      attributes := by
  have howned : own.filter (fun a => !known.contains a.1) = [] := by
    rw [List.filter_eq_nil_iff]
    intro a ha
    simpa using hknown a ha
  have hothers : attributes.filter (fun a => !known.contains a.1) = attributes := by
    rw [List.filter_eq_self]
    intro a ha
    simpa using h.others a ha
  rw [Element.attributesExcept, h.merge hknown, List.filter_append, howned, hothers,
    List.nil_append]

omit hknown in
theorem lookup_eq_none {name : String} (hname : name ∈ known) : attributes.lookup name = none := by
  rw [List.lookup_eq_none_iff]
  intro a ha
  have hne : name ≠ a.1 := fun e => h.others a ha (e ▸ hname)
  simpa using hne

/-- A known name is looked up among the attributes that the program writes itself. -/
theorem lookup_merge {name : String} (hname : name ∈ known) :
    (mergeAttributes own attributes).lookup name = own.lookup name := by
  rw [h.merge hknown, List.lookup_append, h.lookup_eq_none hname, Option.or_none]

end AttributesBeside

theorem attributesNamed_of_names (names : List String) {attributes : List (String × String)}
    (h : attributes.map Prod.fst = names)
    (hnames : names.all isName = true ∧ names.Nodup) : AttributesNamed attributes where
  names a ha := by
    rw [← h, List.all_eq_true] at hnames
    exact hnames.1 a.1 (List.mem_map_of_mem ha)
  nodup := h ▸ hnames.2

/-! ## Units -/

namespace TransUnit

/-- The names of the attributes that the program writes for a unit. -/
def ownNames : List String := ["id", "xml:space"]

/-- A unit of which everything can be written. -/
structure Sound (u : TransUnit) : Prop where
  attributes : AttributesBeside ownNames u.attributes
  sourceAttributes : AttributesNamed u.sourceAttributes
  targetAttributes : AttributesBeside ["state"] u.targetAttributes
  solid : ∀ n, .foreign n ∈ u.children → n.Solid
  foreign : ∀ n, .foreign n ∈ u.children → ∀ e, n.element? = some e →
    e.name ≠ "source" ∧ e.name ≠ "target"

theorem named_own (id : String) :
    AttributesNamed [("id", id), ("xml:space", "preserve")] :=
  attributesNamed_of_names ["id", "xml:space"] rfl (by decide)

theorem named_state (s : Option String) :
    AttributesNamed (s.map fun s => ("state", s)).toList := by
  cases s with
  | none => exact .nil
  | some s => exact attributesNamed_of_names ["state"] rfl (by decide)

theorem mem_own (id : String) :
    ∀ a ∈ [("id", id), ("xml:space", "preserve")], a.1 ∈ ownNames := by
  simp [ownNames]

theorem mem_state (s : Option String) :
    ∀ a ∈ (s.map fun s => ("state", s)).toList, a.1 ∈ ["state"] := by
  cases s <;> simp

theorem Sound.named_allAttributes {u : TransUnit} (h : u.Sound) (id : String) :
    AttributesNamed (u.allAttributes id) :=
  h.attributes.named_merge (named_own id) (mem_own id)

theorem Sound.named_allTargetAttributes {u : TransUnit} (h : u.Sound) :
    AttributesNamed u.allTargetAttributes :=
  h.targetAttributes.named_merge (named_state u.state) (mem_state u.state)

theorem foreign_mem_parts {u : TransUnit} {n : Node} (h : .foreign n ∈ u.parts) :
    .foreign n ∈ u.children := by
  rw [parts] at h
  split at h
  · split at h <;> simp at h
  · exact h

theorem Sound.block {u : TransUnit} (h : u.Sound) (id : String) : (u.block id).Sound := by
  have hinner : ∀ b ∈ u.innerBlocks, b.Sound := by
    intro b hb
    rw [innerBlocks, List.mem_append, List.mem_flatMap, List.mem_map] at hb
    rcases hb with ⟨c, hc, hb⟩ | ⟨n, -, rfl⟩
    · cases c with
      | source =>
        rw [List.mem_singleton.1 hb]
        exact .inline _ (by decide) h.sourceAttributes
      | target =>
        rw [partBlocks] at hb
        split at hb
        · cases hb
        · rw [List.mem_singleton.1 hb]
          exact .inline _ (by decide) h.named_allTargetAttributes
      | foreign n => exact (h.solid n (foreign_mem_parts hc)).sound b hb
    · refine .inline _ (by decide) ?_
      cases n.author with
      | none => exact .nil
      | some a => exact attributesNamed_of_names ["from"] rfl (by decide)
  exact .nested (by decide) (h.named_allAttributes id) hinner

end TransUnit

/-! ## Plural groups -/

namespace PluralGroup

/-- The names of the attributes that the program writes for a plural group. -/
def ownNames : List String := ["id", "restype"]

/-- A plural group of which everything can be written and whose forms have indexes that can be
read. -/
structure Sound (id : String) (g : PluralGroup) : Prop where
  restype : g.restype = pluralRestype
  attributes : AttributesBeside ownNames g.attributes
  forms : ∀ i u, (i, u) ∈ g.forms.entries → u.Sound
  indexes : ∀ i u, (i, u) ∈ g.forms.entries → id ≠ "" ∧ i < formLimit
  ascending : g.forms.Ascending
  solid : ∀ n, .foreign n ∈ g.children → n.Solid
  foreign : ∀ n, .foreign n ∈ g.children → ∀ e, n.element? = some e →
    e.name ≠ "group" ∧ e.name ≠ "trans-unit"

theorem named_own (id restype : String) : AttributesNamed [("id", id), ("restype", restype)] :=
  attributesNamed_of_names ["id", "restype"] rfl (by decide)

theorem mem_own (id restype : String) :
    ∀ a ∈ [("id", id), ("restype", restype)], a.1 ∈ ownNames := by
  simp [ownNames]

theorem foreign_mem_parts {g : PluralGroup} {n : Node} :
    .foreign n ∈ g.children.map GroupChild.part ↔ .foreign n ∈ g.children := by
  rw [List.mem_map]
  constructor
  · rintro ⟨c, hc, hn⟩
    cases c with
    | form i => cases hn
    | foreign m => cases hn; exact hc
  · intro hn
    exact ⟨.foreign n, hn, rfl⟩

theorem mem_written {orderById : Bool} {g : PluralGroup} (hg : g.forms.Ascending)
    {p : Part Nat TransUnit} (h : p ∈ g.written orderById) :
    (∃ n, p = .foreign n ∧ .foreign n ∈ g.children) ∨
      ∃ i u, p = .keyed i u ∧ (i, u) ∈ g.forms.entries := by
  rcases Part.mem_written (fun es => List.Perm.refl es) h with ⟨n, rfl, hn⟩ | ⟨i, u, rfl, hu⟩
  · exact .inl ⟨n, rfl, foreign_mem_parts.1 hn⟩
  · refine .inr ⟨i, u, rfl, ?_⟩
    rcases hu with hu | hu
    · exact (SortedMap.get?_eq_some_iff hg).1 hu
    · exact hu

theorem Sound.block {id : String} {g : PluralGroup} (h : g.Sound id) (orderById : Bool) :
    (g.block orderById id).Sound := by
  refine .nested (by decide) (h.attributes.named_merge (named_own _ _) (mem_own _ _)) ?_
  intro b hb
  obtain ⟨p, hp, hb⟩ := List.mem_flatMap.1 hb
  rcases mem_written h.ascending hp with ⟨n, rfl, hn⟩ | ⟨i, u, rfl, hu⟩
  · exact (h.solid n hn).sound b hb
  · rw [List.mem_singleton.1 hb]
    exact (h.forms i u hu).block _

end PluralGroup

/-! ## Documents -/

/-- What an identifier names, of which everything can be written. -/
def CatalogUnit.Sound (id : String) : CatalogUnit → Prop
  | .single u => u.Sound
  | .plural g => g.Sound id

theorem CatalogUnit.Sound.block {id : String} {u : CatalogUnit} (h : u.Sound id)
    (orderById : Bool) : (u.block orderById id).Sound := by
  cases u with
  | single u => exact TransUnit.Sound.block h id
  | plural g => exact PluralGroup.Sound.block h orderById

namespace Header

theorem named_attributes (h : Header) : AttributesNamed h.attributes := by
  rw [attributes]
  cases h.target? with
  | none =>
    exact attributesNamed_of_names
      ["original", "product-name", "source-language", "datatype"] rfl (by decide)
  | some t =>
    exact attributesNamed_of_names
      ["original", "product-name", "source-language", "datatype", "target-language"] rfl
      (by decide)

theorem mem_attributes (h : Header) : ∀ a ∈ h.attributes, a.1 ∈ metadataNames := by
  rw [attributes]
  cases h.target? <;> simp [metadataNames]

end Header

namespace Document

/-- A catalog of which everything can be written. -/
structure Sound (d : Document) : Prop where
  fileAttributes : AttributesBeside metadataNames d.fileAttributes
  fileChildren : ∀ n ∈ d.fileChildren, n.Solid ∧ ∃ e : Element, n = e.toNode ∧ e.name ≠ "body"
  solid : ∀ n, .foreign n ∈ d.body → n.Solid
  units : ∀ id u, (id, u) ∈ d.units.entries → u.Sound id

theorem foreign_mem_parts {d : Document} {n : Node} :
    .foreign n ∈ d.body.map BodyNode.part ↔ .foreign n ∈ d.body := by
  rw [List.mem_map]
  constructor
  · rintro ⟨c, hc, hn⟩
    cases c with
    | unit id => cases hn
    | foreign m => cases hn; exact hc
  · intro hn
    exact ⟨.foreign n, hn, rfl⟩

theorem mem_written {layout : Layout} {d : Document} {p : Part String CatalogUnit}
    (h : p ∈ d.written layout) :
    (∃ n, p = .foreign n ∧ .foreign n ∈ d.body) ∨
      ∃ id u, p = .keyed id u ∧ (id, u) ∈ d.units.entries := by
  rcases Part.mem_written (Text.sortNatural_perm _) h with ⟨n, rfl, hn⟩ | ⟨id, u, rfl, hu⟩
  · exact .inl ⟨n, rfl, foreign_mem_parts.1 hn⟩
  · refine .inr ⟨id, u, rfl, ?_⟩
    rcases hu with hu | hu
    · exact Dict.mem_of_get? hu
    · exact hu

theorem Sound.bodyBlocks {d : Document} (h : d.Sound) (layout : Layout) :
    ∀ b ∈ d.bodyBlocks layout, b.Sound := by
  intro b hb
  obtain ⟨p, hp, hb⟩ := List.mem_flatMap.1 hb
  rcases mem_written hp with ⟨n, rfl, hn⟩ | ⟨id, u, rfl, hu⟩
  · exact (h.solid n hn).sound b hb
  · rw [List.mem_singleton.1 hb]
    exact (h.units id u hu).block _

theorem Sound.fileBlock {d : Document} (h : d.Sound) (layout : Layout) (header : Header) :
    (d.fileBlock layout header).Sound := by
  refine .nested (by decide)
    (h.fileAttributes.named_merge header.named_attributes header.mem_attributes) ?_
  intro b hb
  rcases List.mem_append.1 hb with hb | hb
  · rw [Node.blocksAll_eq_flatMap, List.mem_flatMap] at hb
    obtain ⟨n, hn, hb⟩ := hb
    exact (h.fileChildren n hn).1.sound b hb
  · rw [List.mem_singleton.1 hb]
    exact .nested (by decide) .nil (h.bodyBlocks layout)

/-- The root element that the text of a catalog is read as. -/
def root (layout : Layout) (d : Document) (header : Header) : Element :=
  ⟨"xliff", [("xmlns", "urn:oasis:names:tc:xliff:document:1.2"), ("version", "1.2")],
    Block.contents layout.tabWidth 0 [d.fileBlock layout header]⟩

theorem Sound.block {d : Document} (h : d.Sound) (layout : Layout) (header : Header) :
    (d.block layout header).Sound := by
  refine .nested (by decide) (attributesNamed_of_names ["xmlns", "version"] rfl (by decide)) ?_
  intro b hb
  rw [List.mem_singleton.1 hb]
  exact h.fileBlock layout header

/-- The text of a sound catalog is read as a tree again. -/
theorem Sound.parse_render {d : Document} (h : d.Sound) (layout : Layout) (header : Header) :
    Markup.parse (render layout d header) = .ok (d.root layout header) := by
  rw [render_eq]
  exact Markup.parse_document (h.block layout header) layout.tabWidth

end Document

end Catalog

end TranslationAudit
