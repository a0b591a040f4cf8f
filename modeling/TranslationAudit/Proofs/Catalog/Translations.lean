import TranslationAudit.Proofs.Catalog.Lookup
import TranslationAudit.Proofs.Catalog.Matching
import TranslationAudit.Proofs.Catalog.Sorted

/-! # Translations of a sorted catalog

Sorting moves the foreign nodes of a body in front of its units. A foreign node that repeats a unit
is then read first and takes the identifier of the unit.

* `Translation`: what a unit says; `Document.translation?` looks it up.
* `Document.translation?_congr`: it depends on what the units say only.
* `Document.get?_resorted`: the units of a sorted catalog that was read back.
* `Document.RepeatsAgree`: catalogs in which those that take identifiers say what the units say.
* `sorting_keeps_iff`: the catalogs of which sorting keeps all translations.
-/

namespace TranslationAudit.Catalog

open Markup (Node)

/-! ## What units say -/

/-- What a unit says. An absent source counts as empty. -/
structure Translation where
  source : String
  target : Option String
  state : Option String
deriving DecidableEq

def TransUnit.translation (u : TransUnit) : Translation where
  source := u.source.getD ""
  target := u.target
  state := u.state

theorem TransUnit.Matches.translation {u v : TransUnit} (h : u.Matches v) :
    v.translation = u.translation := by
  rw [TransUnit.translation, h.source, h.target, h.state, TransUnit.translation]

/-- What a unit or a group says, a group for each of its forms. -/
structure Translations where
  single : Option Translation
  form : Nat → Option Translation

def CatalogUnit.translations : CatalogUnit → Translations
  | .single u => ⟨some u.translation, fun _ => none⟩
  | .plural g => ⟨none, fun n => (g.forms.get? n).map TransUnit.translation⟩

theorem CatalogUnit.translations_reread {id : String} {u : CatalogUnit} (h : u.Sound id)
    (hread : u.AsRead) (tab : Nat) (orderById : Bool) :
    (u.reread tab orderById).translations = u.translations := by
  cases u with
  | single u =>
    have hu : (u.reread tab 3).translation = u.translation :=
      (TransUnit.matches_reread h hread tab 3).translation
    simp only [reread, translations, hu]
  | plural g =>
    have hform (n : Nat) : ((g.reread tab orderById).forms.get? n).map TransUnit.translation =
        (g.forms.get? n).map TransUnit.translation := by
      rw [PluralGroup.forms_reread h.ascending, SortedMap.get?, SortedMap.get?, List.find?_map,
        Option.map_map, Option.map_map, Option.map_map]
      refine Option.map_congr fun e he => ?_
      have hmem : e ∈ g.forms.entries := List.mem_of_find?_eq_some he
      exact (TransUnit.matches_reread (h.forms e.1 e.2 hmem) (hread.form hmem) tab 4).translation
    simp only [reread, translations, hform]

namespace Document

variable {d d' : Document} {id : String}

/-- What the unit of a concrete identifier says. -/
def translation? (d : Document) (id : String) : Option Translation :=
  (d.find? id).map TransUnit.translation

/-- What all that goes by an identifier says. -/
def translationsOf? (d : Document) (id : String) : Option Translations :=
  (d.units.get? id).map CatalogUnit.translations

theorem translation?_eq (d : Document) (id : String) :
    d.translation? id = ((d.translationsOf? id).bind Translations.single).or
      ((splitPluralForm id).bind fun form =>
        (d.translationsOf? form.1).bind fun t => t.form form.2) := by
  -- a single unit hides the form of its identifier
  by_cases h : d.HasSingle id
  · obtain ⟨u, hu⟩ := h
    simp [translation?, translationsOf?, find?_single hu, hu, CatalogUnit.translations]
  · have hnone : (d.translationsOf? id).bind Translations.single = none := by
      cases hid : d.units.get? id with
      | none => simp [translationsOf?, hid]
      | some w =>
        cases w with
        | single u => exact absurd ⟨u, hid⟩ h
        | plural g => simp [translationsOf?, hid, CatalogUnit.translations]
    have hform (base : String) (n : Nat) : (d.form? base n).map TransUnit.translation =
        (d.translationsOf? base).bind fun t => t.form n := by
      rw [form?, translationsOf?]
      cases d.units.get? base with
      | none => rfl
      | some w => cases w <;> rfl
    rw [translation?, find?_form h, hnone, Option.none_or, Option.map_bind]
    simp only [Function.comp_def, hform]

/-- What is said depends on what the units say only. -/
theorem translation?_congr (h : ∀ id, d'.translationsOf? id = d.translationsOf? id) (id : String) :
    d'.translation? id = d.translation? id := by
  rw [translation?_eq, translation?_eq, h]
  simp only [h]

/-- The concrete units of a catalog are found. -/
theorem Keyed.isSome_translation? (h : d.Keyed) {c : String × TransUnit}
    (hc : c ∈ d.concreteUnits) : (d.translation? c.1).isSome = true := by
  rw [translation?, Option.isSome_map]
  rcases h.hasUnit_iff.1 ⟨c.2, hc⟩ with ⟨u, hu⟩ | ⟨base, n, hform, hid⟩
  · rw [find?_single hu]
    rfl
  · by_cases hsingle : d.HasSingle c.1
    · obtain ⟨u, hu⟩ := hsingle
      rw [find?_single hu]
      rfl
    · rw [find?_form hsingle, hid, h.split_form hform]
      exact hasForm_iff_form?.1 hform

/-- Every concrete unit is found and says the same in another catalog. -/
def Keeps (d d' : Document) : Prop :=
  ∀ c ∈ d.concreteUnits, ∃ t, d.translation? c.1 = some t ∧ d'.translation? c.1 = some t

theorem Keyed.keeps_iff (h : d.Keyed) :
    d.Keeps d' ↔ ∀ c ∈ d.concreteUnits, d'.translation? c.1 = d.translation? c.1 := by
  constructor
  · intro hkeeps c hc
    obtain ⟨t, ht, ht'⟩ := hkeeps c hc
    rw [ht, ht']
  · intro hsame c hc
    obtain ⟨t, ht⟩ := Option.isSome_iff_exists.1 (h.isSome_translation? hc)
    exact ⟨t, ht, (hsame c hc).trans ht⟩

/-! ## Identifiers that change hands -/

/-- A catalog with other units for some of its identifiers. -/
def replaced (d : Document) (taken : Dict String CatalogUnit) : Document :=
  { d with units := ⟨d.units.entries.map fun e => (e.1, (taken.get? e.1).getD e.2)⟩ }

/-- The foreign nodes can be read before the units, and where they take identifiers from units, the
same is found as before. -/
def RepeatsAgree (tab : Nat) (d : Document) : Prop :=
  ∃ ps, readParts bodyVerdict [] (d.foreignNodes.map (Node.reread tab 3)) = some ps ∧
    ∀ c ∈ d.concreteUnits,
      (d.replaced ⟨Part.entries ps⟩).translation? c.1 = d.translation? c.1

instance (tab : Nat) (d : Document) : Decidable (d.RepeatsAgree tab) :=
  match hps : readParts bodyVerdict [] (d.foreignNodes.map (Node.reread tab 3)) with
  | none => isFalse (by simp [RepeatsAgree, hps])
  | some ps =>
    decidable_of_iff (∀ c ∈ d.concreteUnits,
      (d.replaced ⟨Part.entries ps⟩).translation? c.1 = d.translation? c.1)
      (by simp [RepeatsAgree, hps])

theorem translationsOf?_replaced (d : Document) (taken : Dict String CatalogUnit) (id : String) :
    (d.replaced taken).translationsOf? id =
      (d.units.get? id).map fun v => ((taken.get? id).getD v).translations := by
  rw [translationsOf?, replaced, Dict.get?, Dict.lookup_map_values, Option.map_map]
  rfl

theorem lookup_sortedUnits (h : d.units.Distinct) (id : String) :
    d.sortedUnits.lookup id = d.units.get? id := by
  have hsorted : (⟨d.sortedUnits⟩ : Dict String CatalogUnit).Distinct := nodup_sortedUnits h
  refine Option.ext fun v => ?_
  rw [Dict.get?_eq_some_iff h, ← mem_sortedUnits]
  exact Dict.get?_eq_some_iff hsorted

section Resorted

variable (h : d.Sound) (hread : d.AsRead) {layout : Layout} {header : Header}
variable {ps : List (Part String CatalogUnit)}
variable (hps : readParts bodyVerdict [] (d.foreignNodes.map (Node.reread layout.tabWidth 3)) =
  some ps)
include h hread hps

/-- The units of a sorted catalog that was read back. -/
theorem get?_resorted (hkeyed : (d.resorted layout header ps).Keyed) (id : String) :
    (d.resorted layout header ps).units.get? id =
      (d.units.get? id).map fun v => successor layout.tabWidth ps (id, v) := by
  rw [← lookup_sortedUnits hkeyed.distinct, sortedUnits_resorted h hread hps, Dict.lookup_map_values,
    lookup_sortedUnits hread.distinct]

/-- A sorted catalog that was read back says what the catalog says with the units that take
identifiers. -/
theorem translation?_resorted (hkeyed : (d.resorted layout header ps).Keyed) (id : String) :
    (d.resorted layout header ps).translation? id =
      (d.replaced ⟨Part.entries ps⟩).translation? id := by
  refine translation?_congr (fun id => ?_) id
  rw [translationsOf?_replaced, translationsOf?, get?_resorted h hread hps hkeyed,
    Option.map_map]
  refine Option.map_congr fun v hv => ?_
  have hentry := Dict.mem_of_get? hv
  -- what took the identifier stands in both, and what kept it says the same once it is read again
  rw [Function.comp_apply, successor]
  cases (⟨Part.entries ps⟩ : Dict String CatalogUnit).get? id with
  | some u => rfl
  | none => exact CatalogUnit.translations_reread (h.units id v hentry) (hread.unit hentry) _ true

end Resorted

/-- Nothing changes hands where no foreign node is a unit with an identifier. -/
theorem repeatsAgree_of_foreign (h : d.Sound) (tab : Nat)
    (hforeign : ∀ n ∈ d.foreignNodes, ∀ e, n.element? = some e → IsUnitElement e →
      e.attribute? "id" = none) : d.RepeatsAgree tab := by
  refine ⟨_, readParts_foreignNodes h tab hforeign, fun c _ => ?_⟩
  refine translation?_congr (fun id => ?_) c.1
  rw [translationsOf?_replaced, Part.entries_map_foreign]
  rfl

end Document

/-- A catalog that is written sorted by identifier is read back with all its translations if the
foreign nodes, which are read first then, take no identifier from a unit that says something else.
They take none where no foreign node is a unit with an identifier. -/
theorem sorting_keeps_iff {path text : String} {d : Document}
    (hparse : Document.parse path text = .ok d) (hnamed : Document.NamesIn text) (tab : Nat)
    (header : Header) :
    ((∃ d', Document.parse path (render ⟨tab, true⟩ d header) = .ok d' ∧ d.Keeps d') ↔
        d.RepeatsAgree tab) ∧
      ((∀ n ∈ d.foreignNodes, ∀ e, n.element? = some e → IsUnitElement e →
        e.attribute? "id" = none) → d.RepeatsAgree tab) := by
  obtain ⟨h, hread⟩ := Document.parse_sound hparse hnamed
  have hlayout : (⟨tab, true⟩ : Layout).orderById = true := rfl
  have hback := Document.parse_render_sorted h hread hlayout path header
  refine ⟨?_, Document.repeatsAgree_of_foreign h tab⟩
  simp only [(Document.keyed_of_parse hparse).keeps_iff, Document.RepeatsAgree]
  cases hps : readParts bodyVerdict [] (d.foreignNodes.map (Node.reread tab 3)) with
  | none =>
    rw [hps] at hback
    simp [hback]
  | some ps =>
    rw [hps] at hback
    have hsame := Document.translation?_resorted h hread hps (Document.keyed_of_parse hback)
    simp only [hback, Except.ok.injEq, exists_eq_left', Option.some.injEq, hsame]

def differingRepeat : String :=
  "<x><file><body><trans-unit id='a'><source>One</source></trans-unit>" ++
    "<trans-unit id='a'><source>Two</source></trans-unit></body></file></x>"

def agreeingRepeat : String :=
  "<x><file><body><trans-unit id='a'><source>One</source></trans-unit>" ++
    "<trans-unit id='a'><source>One</source><note>Twice</note></trans-unit></body></file></x>"

/-- A unit that is repeated with another text is lost, and one that is repeated with the same text
is not. -/
theorem sorting_keeps_iff_repeat :
    (∃ d, Document.parse "C.xlf" differingRepeat = .ok d ∧ ∀ header,
        ¬∃ d', Document.parse "C.xlf" (render ⟨2, true⟩ d header) = .ok d' ∧ d.Keeps d') ∧
      ∃ d, Document.parse "C.xlf" agreeingRepeat = .ok d ∧ ∀ header,
        ∃ d', Document.parse "C.xlf" (render ⟨2, true⟩ d header) = .ok d' ∧ d.Keeps d' := by
  have hchecked (text : String) (b : Bool) (h : Document.isReadable text = true ∧
      (Document.parse "C.xlf" text).toOption.map (fun d => decide (d.RepeatsAgree 2)) = some b) :
      ∃ d, Document.parse "C.xlf" text = .ok d ∧ Document.NamesIn text ∧
        decide (d.RepeatsAgree 2) = b := by
    obtain ⟨d, hd, hnamed⟩ := Document.exists_parse "C.xlf" h.1
    have hagrees := h.2
    rw [hd] at hagrees
    exact ⟨d, hd, hnamed, Option.some.inj hagrees⟩
  constructor
  · obtain ⟨d, hd, hnamed, hdiffers⟩ := hchecked differingRepeat false (by decide +kernel)
    refine ⟨d, hd, fun header => ?_⟩
    rw [(sorting_keeps_iff hd hnamed 2 header).1]
    exact of_decide_eq_false hdiffers
  · obtain ⟨d, hd, hnamed, hagrees⟩ := hchecked agreeingRepeat true (by decide +kernel)
    refine ⟨d, hd, fun header => ?_⟩
    rw [(sorting_keeps_iff hd hnamed 2 header).1]
    exact of_decide_eq_true hagrees

end TranslationAudit.Catalog
