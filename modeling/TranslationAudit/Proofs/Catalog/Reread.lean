import TranslationAudit.Proofs.Catalog.Concrete
import TranslationAudit.Proofs.Catalog.Edit
import TranslationAudit.Proofs.Catalog.RoundTrip

/-! # Changed catalogs read back

A unit or group that repeats the identifier of another one is kept as a foreign node. It is read as
one again as long as the identifier is still taken before it.

* `Document.Repeats`: the identifiers that such nodes repeat.
* `Document.Edited`: catalogs that came from a catalog that was read, by changes of its units.
* `Document.Edited.reread`: an edited catalog is read back with its single units and forms.
-/

namespace TranslationAudit.Catalog

open Markup (Block Element Node)

/-! ## Parts with other values -/

namespace Part

variable {κ ν : Type}

/-- A part with the value that is found for its key. -/
def update (find : κ → Option ν) : Part κ ν → Option (Part κ ν)
  | keyed k _ => (find k).map (keyed k)
  | foreign n => some (foreign n)

theorem recorded_update [DecidableEq κ] (find : κ → Option ν) {ps : List (Part κ ν)}
    {seen : List κ} (hnodup : (keys ps).Nodup) (hfresh : ∀ k ∈ keys ps, k ∉ seen) :
    (recorded false find seen (ps.map erase)).1 = ps.filterMap (update find) := by
  induction ps generalizing seen with
  | nil => rfl
  | cons p ps ih =>
    cases p with
    | foreign n =>
      have hrest := ih hnodup hfresh
      exact congrArg (foreign n :: ·) hrest
    | keyed k v =>
      rw [keys_keyed, List.nodup_cons] at hnodup
      have hk : seen.contains k = false := by simpa using hfresh k List.mem_cons_self
      have hothers : ∀ j ∈ keys ps, j ∉ seen := fun j hj => hfresh j (List.mem_cons_of_mem k hj)
      rw [List.map_cons, erase, recorded, hk]
      cases hfind : find k with
      | none =>
        simp only [Bool.or_self, Bool.false_eq_true, if_false]
        rw [ih hnodup.2 hothers, List.filterMap_cons, update, hfind]
        rfl
      | some w =>
        have hwritten : ∀ j ∈ keys ps, j ∉ k :: seen := by
          intro j hj hm
          rcases List.mem_cons.1 hm with rfl | hm
          · exact hnodup.1 hj
          · exact hothers j hj hm
        have hrest := ih hnodup.2 hwritten
        simp only [Bool.or_self, Bool.false_eq_true, if_false]
        rw [List.filterMap_cons, update, hfind]
        exact congrArg (keyed k w :: ·) hrest

end Part

theorem stable_append_keyed {κ ν : Type} {verdict : List κ → Element → Verdict κ ν}
    {seen : List κ} {ps : List (Part κ ν)} {es : List (κ × ν)} (h : Stable verdict seen ps)
    (hnodup : (Part.keys (ps ++ es.map fun e => .keyed e.1 e.2)).Nodup)
    (hfresh : ∀ e ∈ es, e.1 ∉ seen) :
    Stable verdict seen (ps ++ es.map fun e => .keyed e.1 e.2) := by
  induction ps generalizing seen with
  | nil =>
    refine stable_of_nodup hnodup ?_ ?_
    · intro k hk
      rw [List.nil_append, Part.keys_map_keyed] at hk
      obtain ⟨e, he, rfl⟩ := List.mem_map.1 hk
      exact hfresh e he
    · intro n hn
      simp at hn
  | cons p ps ih =>
    cases p with
    | foreign n => exact ⟨h.1, ih h.2 hnodup hfresh⟩
    | keyed k v =>
      rw [List.cons_append, Part.keys_keyed, List.nodup_cons] at hnodup
      refine ⟨h.1, ih h.2 hnodup.2 ?_⟩
      intro e he hm
      rcases List.mem_append.1 hm with hm | hm
      · exact hfresh e he hm
      · apply hnodup.1
        rw [Part.keys_append, Part.keys_map_keyed, ← List.mem_singleton.1 hm]
        exact List.mem_append_right _ (List.mem_map_of_mem he)

/-- Parts of a body stay stable while values change and units go, if no identifier goes that is
repeated. -/
theorem stable_update {find : String → Option CatalogUnit} {ps : List (Part String CatalogUnit)}
    {seen seen' : List String} (h : Stable bodyVerdict seen ps) (hsub : ∀ k ∈ seen', k ∈ seen)
    (hleft : ∀ k ∈ seen, (find k).isSome = true → k ∈ seen')
    (hrepeats : ∀ n, .foreign n ∈ ps → ∀ e id, n.element? = some e → IsUnitElement e →
      e.attribute? "id" = some id → (find id).isSome = true) :
    Stable bodyVerdict seen' (ps.filterMap (Part.update find)) := by
  induction ps generalizing seen seen' with
  | nil => trivial
  | cons p ps ih =>
    have hothers : ∀ n, .foreign n ∈ ps → ∀ e id, n.element? = some e → IsUnitElement e →
        e.attribute? "id" = some id → (find id).isSome = true :=
      fun n hn => hrepeats n (List.mem_cons_of_mem p hn)
    cases p with
    | foreign n =>
      refine ⟨?_, ih h.2 hsub hleft hothers⟩
      intro e he
      rw [bodyVerdict_eq_foreign_iff]
      intro id hid hunit
      have hseen := bodyVerdict_eq_foreign_iff.1 (h.1 e he) id hid hunit
      exact hleft id hseen (hrepeats n List.mem_cons_self e id he hunit hid)
    | keyed k v =>
      rw [List.filterMap_cons, Part.update]
      cases hfind : find k with
      | none =>
        -- the unit is gone, so no node that follows repeats its identifier
        refine ih h.2 (fun j hj => List.mem_append_left _ (hsub j hj)) ?_ hothers
        intro j hj hsome
        rcases List.mem_append.1 hj with hj | hj
        · exact hleft j hj hsome
        · rw [List.mem_singleton.1 hj, hfind] at hsome
          cases hsome
      | some w =>
        refine ⟨fun hk => h.1 (hsub k hk), ih h.2 ?_ ?_ hothers⟩
        · intro j hj
          rcases List.mem_append.1 hj with hj | hj
          · exact List.mem_append_left _ (hsub j hj)
          · exact List.mem_append_right _ hj
        · intro j hj hsome
          rcases List.mem_append.1 hj with hj | hj
          · exact List.mem_append_left _ (hleft j hj hsome)
          · exact List.mem_append_right _ hj

/-- What a node is read as has its name and its attributes. -/
theorem element_of_reread {n : Node} (h : n.Solid) (tab level : Nat) {e' : Element}
    (he' : (n.reread tab level).element? = some e') :
    ∃ e, n.element? = some e ∧ e'.name = e.name ∧
      ∀ k, e'.attribute? k = e.attribute? k := by
  cases h.tidy with
  | text s => cases h.notText
  | comment hs =>
    rw [Node.reread_comment] at he'
    cases he'
  | @element name attributes children hnodup hchildren hchain =>
    obtain ⟨children', hread⟩ := Node.reread_element tab level name attributes children
    rw [hread, Node.element?] at he'
    cases he'
    exact ⟨⟨name, attributes, children⟩, rfl, rfl, fun k => Markup.lookup_sortNatural hnodup k⟩

/-- The forms of what a group is read as. -/
theorem PluralGroup.get?_again {g : PluralGroup} (h : g.forms.Ascending) (tab : Nat)
    (orderById : Bool) (id : String) (n : Nat) :
    (g.again tab orderById id).forms.get? n =
      (g.forms.get? n).map fun u => readUnit (formElement tab id n u) := by
  have hnodup : ((Part.entries ((g.written orderById).map
      (Part.map (fun i u => readUnit (formElement tab id i u)) (Node.reread tab 4)))).map
        Prod.fst).Nodup := by
    rw [← Part.keys, Part.keys_map]
    exact nodup_keys_written h orderById
  apply Option.ext
  intro v
  have hforms : (g.again tab orderById id).forms.get? n = some v ↔
      (n, v) ∈ (g.again tab orderById id).forms.entries :=
    SortedMap.get?_eq_some_iff (ascending_formsOf _)
  rw [hforms, again, ofParts, mem_formsOf hnodup, Part.entries_map, List.mem_map,
    Option.map_eq_some_iff]
  constructor
  · rintro ⟨⟨i, u⟩, hu, heq⟩
    cases heq
    have hu := (mem_written_iff h).1 (Part.mem_entries.1 hu)
    exact ⟨u, (SortedMap.get?_eq_some_iff h).2 hu, rfl⟩
  · rintro ⟨u, hu, rfl⟩
    have hwritten : .keyed n u ∈ g.written orderById :=
      (mem_written_iff h).2 ((SortedMap.get?_eq_some_iff h).1 hu)
    exact ⟨(n, u), Part.mem_entries.2 hwritten, rfl⟩

theorem PluralGroup.contains_again {id : String} {g : PluralGroup} (h : g.forms.Ascending)
    (tab : Nat) (orderById : Bool) (n : Nat) :
    (g.again tab orderById id).forms.contains n = g.forms.contains n := by
  rw [SortedMap.contains, get?_again h, Option.isSome_map, SortedMap.contains]

/-! ## Edited catalogs -/

namespace Document

variable {d d' : Document} {layout : Layout}

/-- The identifiers that a foreign unit or group of the body repeats. -/
def Repeats (d : Document) (id : String) : Prop :=
  ∃ n e, .foreign n ∈ d.body ∧ n.element? = some e ∧ IsUnitElement e ∧
    e.attribute? "id" = some id

/-- Whether a node of a body still stands for something. -/
def stands (d : Document) : BodyNode → Bool
  | .unit id => d.units.contains id
  | .foreign _ => true

/-- A catalog that came from another one by changes of its units: the body lost the nodes of the
units that went. -/
structure Edited (d d' : Document) : Prop where
  sound : d'.Sound
  distinct : d'.units.Distinct
  body : d'.body = d.body.filter d'.stands

theorem foreign_mem_edited (h : d.Edited d') {n : Node} :
    .foreign n ∈ d'.body ↔ .foreign n ∈ d.body := by
  rw [h.body, List.mem_filter]
  simp [stands]

theorem repeats_edited (h : d.Edited d') {id : String} : d'.Repeats id ↔ d.Repeats id := by
  unfold Repeats
  simp only [foreign_mem_edited h]

/-- Whether the identifiers that are repeated are still taken, where nodes keep their places. -/
def KeepsRepeats (layout : Layout) (d d' : Document) : Prop :=
  ∀ id, d.Repeats id → layout.orderById = false ∧ d'.units.contains id = true

theorem filterMap_stands (ps : List (Part String CatalogUnit)) :
    (ps.filter fun p => d.stands (BodyNode.ofPart p)).filterMap (Part.update d.units.get?) =
      ps.filterMap (Part.update d.units.get?) := by
  induction ps with
  | nil => rfl
  | cons p ps ih =>
    rw [List.filter_cons]
    cases p with
    | foreign n =>
      have hstands : d.stands (BodyNode.ofPart (.foreign n : Part String CatalogUnit)) = true := rfl
      rw [if_pos hstands, List.filterMap_cons, ih, List.filterMap_cons]
    | keyed k v =>
      cases hk : d.units.get? k with
      | none =>
        have hstands : d.stands (BodyNode.ofPart (.keyed k v : Part String CatalogUnit)) = false := by
          rw [BodyNode.ofPart, stands, Dict.contains, hk]
          rfl
        rw [if_neg (by simp [hstands]), ih, List.filterMap_cons, Part.update, hk]
        rfl
      | some u =>
        have hstands : d.stands (BodyNode.ofPart (.keyed k v : Part String CatalogUnit)) = true := by
          rw [BodyNode.ofPart, stands, Dict.contains, hk]
          rfl
        rw [if_pos hstands, List.filterMap_cons, ih, List.filterMap_cons]

/-- What is written of an edited catalog is taken for the same where it stands. -/
theorem Edited.stable (h : d.Edited d') (hread : d.AsRead) (hrepeats : KeepsRepeats layout d d') :
    Stable bodyVerdict [] (d'.written layout) := by
  have hnodup : (Part.keys (d'.written layout)).Nodup :=
    Part.nodup_keys_written (Text.sortNatural_perm _) h.distinct
  cases hlayout : layout.orderById with
  | true =>
    refine stable_of_nodup hnodup (by simp) ?_
    intro n hn seen e he
    have hbody : .foreign n ∈ d'.body := by
      rcases mem_written hn with ⟨m, heq, hm⟩ | ⟨id, u, heq, -⟩
      · cases heq
        exact hm
      · cases heq
    rw [bodyVerdict_eq_foreign_iff]
    intro id hid hunit
    have hrepeated : d.Repeats id := ⟨n, e, (foreign_mem_edited h).1 hbody, he, hunit, hid⟩
    have hnot := (hrepeats id hrepeated).1
    rw [hlayout] at hnot
    cases hnot
  | false =>
    obtain ⟨ps, hstable, -, hbody, -⟩ := hread
    have hparts : d'.body.map BodyNode.part =
        (ps.filter fun p => d'.stands (BodyNode.ofPart p)).map Part.erase := by
      rw [h.body, hbody, List.filter_map, List.map_map]
      exact List.map_congr_left fun p _ => part_ofPart p
    have hkeys : (Part.keys (ps.filter fun p => d'.stands (BodyNode.ofPart p))).Nodup := by
      have hsub := (List.filter_sublist (p := fun p => d'.stands (BodyNode.ofPart p))
        (l := ps)).filterMap Part.entry?
      exact (hsub.map Prod.fst).nodup hstable.nodup.1
    have hrecorded := Part.recorded_update d'.units.get? hkeys fun _ _ => List.not_mem_nil
    rw [filterMap_stands] at hrecorded
    have hkept : Stable bodyVerdict [] (ps.filterMap (Part.update d'.units.get?)) := by
      refine stable_update hstable (by simp) (by simp) ?_
      intro n hn e id he hunit hid
      have hforeign : .foreign n ∈ d.body := by
        rw [hbody]
        exact foreign_mem_map_ofPart.2 hn
      exact (hrepeats id ⟨n, e, hforeign, he, hunit, hid⟩).2
    have hwritten : ∃ es : List (String × CatalogUnit), d'.written layout =
        ps.filterMap (Part.update d'.units.get?) ++ es.map fun e => .keyed e.1 e.2 := by
      rw [written, hparts, hlayout, ← hrecorded]
      exact ⟨_, rfl⟩
    obtain ⟨es, hes⟩ := hwritten
    rw [hes] at hnodup ⊢
    exact stable_append_keyed hkept hnodup (by simp)

/-! ## What an edited catalog is read as -/

/-- What the text of a catalog is read as. -/
def again (layout : Layout) (d : Document) (header : Header) : Document :=
  (d.rereadHead layout header).addParts (d.againParts layout)

theorem parse_render_again (h : d.Sound) (hstable : Stable bodyVerdict [] (d.written layout))
    (path : String) (header : Header) :
    parse path (render layout d header) = .ok (d.again layout header) := by
  rw [parse_render_eq h, readParts_bodyBlocks_again h hstable]
  rfl

theorem keyed_mem_written_iff (h : d.units.Distinct) {id : String} {u : CatalogUnit} :
    .keyed id u ∈ d.written layout ↔ d.units.get? id = some u := by
  constructor
  · intro hp
    rcases mem_written hp with ⟨n, heq, -⟩ | ⟨j, v, heq, hv⟩
    · cases heq
    · cases heq
      exact (Dict.get?_eq_some_iff h).2 hv
  · intro hu
    exact Part.keyed_mem_written (Text.sortNatural_perm _) hu (Dict.mem_of_get? hu)

theorem get?_again (h : d.units.Distinct) (header : Header) (id : String) :
    (d.again layout header).units.get? id =
      (d.units.get? id).map (CatalogUnit.again layout.tabWidth layout.orderById id) := by
  have hunits : (d.again layout header).units = ⟨Part.entries (d.againParts layout)⟩ := by
    simp [again, addParts, rereadHead, Dict.empty]
  have hdistinct : (d.again layout header).units.Distinct := by
    rw [Dict.Distinct, hunits]
    have hnodup : (Part.keys (d.againParts layout)).Nodup := by
      rw [againParts, Part.keys_map]
      exact Part.nodup_keys_written (Text.sortNatural_perm _) h
    exact hnodup
  apply Option.ext
  intro v
  rw [Dict.get?_eq_some_iff hdistinct, hunits, againParts, Part.entries_map, List.mem_map,
    Option.map_eq_some_iff]
  constructor
  · rintro ⟨⟨j, u⟩, hu, heq⟩
    cases heq
    exact ⟨u, (keyed_mem_written_iff h).1 (Part.mem_entries.1 hu), rfl⟩
  · rintro ⟨u, hu, rfl⟩
    exact ⟨(id, u), Part.mem_entries.2 ((keyed_mem_written_iff h).2 hu), rfl⟩

theorem hasSingle_again (h : d.units.Distinct) (header : Header) (id : String) :
    (d.again layout header).HasSingle id ↔ d.HasSingle id := by
  unfold HasSingle
  rw [get?_again h]
  constructor
  · rintro ⟨v, hv⟩
    obtain ⟨u, hu, heq⟩ := Option.map_eq_some_iff.1 hv
    cases u with
    | single u => exact ⟨u, hu⟩
    | plural g => cases heq
  · rintro ⟨u, hu⟩
    exact ⟨_, Option.map_eq_some_iff.2 ⟨.single u, hu, rfl⟩⟩

theorem hasForm_again (h : d.units.Distinct) (hsound : d.Sound) (header : Header) (base : String)
    (n : Nat) : (d.again layout header).HasForm base n ↔ d.HasForm base n := by
  unfold HasForm
  rw [get?_again h]
  constructor
  · rintro ⟨g', hg', hn⟩
    obtain ⟨u, hu, heq⟩ := Option.map_eq_some_iff.1 hg'
    cases u with
    | single u => cases heq
    | plural g =>
      cases heq
      rw [PluralGroup.contains_again (hsound.group hu).ascending] at hn
      exact ⟨g, hu, hn⟩
  · rintro ⟨g, hg, hn⟩
    refine ⟨_, Option.map_eq_some_iff.2 ⟨.plural g, hg, rfl⟩, ?_⟩
    rw [PluralGroup.contains_again (hsound.group hg).ascending]
    exact hn

theorem repeats_of_again (hsound : d.Sound) {header : Header} {id : String}
    (h : (d.again layout header).Repeats id) : d.Repeats id := by
  obtain ⟨n', e', hn', he', hunit, hid⟩ := h
  have hbody : (d.again layout header).body = (d.againParts layout).map BodyNode.ofPart := by
    simp [again, addParts, rereadHead]
  rw [hbody] at hn'
  have hpart := foreign_mem_map_ofPart.1 hn'
  obtain ⟨p, hp, heq⟩ := List.mem_map.1 hpart
  cases p with
  | keyed k v => cases heq
  | foreign n =>
    have hn : .foreign n ∈ d.body := by
      rcases mem_written hp with ⟨m, hm, hbody⟩ | ⟨j, u, hj, -⟩
      · cases hm
        exact hbody
      · cases hj
    cases heq
    obtain ⟨e, he, hname, hattribute⟩ :=
      element_of_reread (hsound.solid n hn) layout.tabWidth 3 he'
    refine ⟨n, e, hn, he, ?_, ?_⟩
    · rw [IsUnitElement, ← hname, ← hattribute]
      exact hunit
    · rw [← hattribute]
      exact hid

/-- An edited catalog is read back with its single units and forms. -/
theorem Edited.reread (h : d.Edited d') (hread : d.AsRead) (hrepeats : KeepsRepeats layout d d')
    (path : String) (header : Header) :
    ∃ d'', parse path (render layout d' header) = .ok d'' ∧
      (∀ id, d''.HasSingle id ↔ d'.HasSingle id) ∧
      (∀ base n, d''.HasForm base n ↔ d'.HasForm base n) ∧
      ∀ id, d''.Repeats id → d.Repeats id := by
  have hparse := parse_render_again h.sound (h.stable hread hrepeats) path header
  refine ⟨d'.again layout header, hparse, hasSingle_again h.distinct header,
    hasForm_again h.distinct h.sound header, ?_⟩
  intro id hid
  exact (repeats_edited h).1 (repeats_of_again h.sound hid)

end Document

end TranslationAudit.Catalog
