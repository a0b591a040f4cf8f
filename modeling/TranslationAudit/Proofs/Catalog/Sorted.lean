import Mathlib.Data.List.Nodup
import TranslationAudit.Proofs.Catalog.RoundTrip

/-! # Sorted catalogs read back

A catalog that is sorted by identifier has its foreign nodes before its units. Read again, a foreign
node that is a unit with an identifier takes the identifier from the unit behind it.

* `readParts_units`: the units are read back, and those whose identifiers are taken are foreign.
* `Document.resorted`: what a sorted catalog is read as.
* `Document.RepeatsSettled`: catalogs of which the body is written the same again.
-/

namespace TranslationAudit.Catalog

open Markup (Block Element Node)

/-! ## Units behind foreign nodes -/

/-- What the element of a unit is read as, if some identifiers are taken. -/
def CatalogUnit.resorted (tab : Nat) (taken : List String) (e : String × CatalogUnit) :
    Part String CatalogUnit :=
  if e.1 ∈ taken then .foreign (e.2.element tab true e.1).toNode
  else .keyed e.1 (e.2.reread tab true)

/-- What the element of any unit is read as, if some identifiers are taken. -/
def CatalogUnit.againUnless (tab : Nat) (taken : List String) (e : String × CatalogUnit) :
    Part String CatalogUnit :=
  if e.1 ∈ taken then .foreign (e.2.element tab true e.1).toNode
  else .keyed e.1 (e.2.again tab true e.1)

theorem CatalogUnit.againUnless_eq_resorted {e : String × CatalogUnit} (h : e.2.Sound e.1)
    (hread : e.2.AsRead) (tab : Nat) (taken : List String) :
    againUnless tab taken e = resorted tab taken e := by
  rw [againUnless, resorted, again_eq_reread h hread]

/-- Units are read back, and those whose identifiers are taken are foreign. -/
theorem readParts_units {es : List (String × CatalogUnit)} (hnodup : (es.map Prod.fst).Nodup)
    (h : ∀ e ∈ es, e.2.Sound e.1) (tab : Nat) (taken : List String) :
    readParts bodyVerdict taken (es.map fun e => (e.2.element tab true e.1).toNode) =
      some (es.map (CatalogUnit.againUnless tab taken)) := by
  induction es generalizing taken with
  | nil => rfl
  | cons e es ih =>
    have hsound := h e List.mem_cons_self
    have hrest : ∀ f ∈ es, f.2.Sound f.1 := fun f hf => h f (List.mem_cons_of_mem e hf)
    rw [List.map_cons, List.nodup_cons] at hnodup
    rw [List.map_cons, List.map_cons, CatalogUnit.againUnless]
    by_cases htaken : e.1 ∈ taken
    · have hforeign : bodyVerdict taken (e.2.element tab true e.1) = .foreign := by
        rw [bodyVerdict_eq_foreign_iff, CatalogUnit.attribute?_element hsound]
        intro id hid _
        cases hid
        exact htaken
      rw [if_pos htaken, readParts_of_foreign rfl (by rintro _ ⟨⟩; exact hforeign),
        ih hnodup.2 hrest, Option.map_some]
    · have hkeyed := CatalogUnit.bodyVerdict_again hsound htaken tab true
      -- the identifier is taken from now on, but no unit behind has it
      have hothers : es.map (CatalogUnit.againUnless tab (taken ++ [e.1])) =
          es.map (CatalogUnit.againUnless tab taken) := by
        refine List.map_congr_left ?_
        intro f hf
        have hne : f.1 ≠ e.1 := fun heq => hnodup.1 (heq ▸ List.mem_map_of_mem hf)
        simp [CatalogUnit.againUnless, hne]
      rw [if_neg htaken, readParts_of_keyed hkeyed, ih hnodup.2 hrest, hothers, Option.map_some]

theorem CatalogUnit.block_eq_of_element {id : String} {u v : CatalogUnit} (hu : u.Sound id)
    (huread : u.AsRead) (hv : v.Sound id) (hvread : v.AsRead) {tab : Nat} {orderById : Bool}
    (heq : u.element tab orderById id = v.element tab orderById id) :
    u.block orderById id = v.block orderById id := by
  have hfresh : id ∉ ([] : List String) := by simp
  have huverdict := CatalogUnit.bodyVerdict_element hu huread hfresh tab orderById
  have hvverdict := CatalogUnit.bodyVerdict_element hv hvread hfresh tab orderById
  rw [heq, hvverdict] at huverdict
  have hreread : v.reread tab orderById = u.reread tab orderById := by
    injection huverdict
  rw [← CatalogUnit.block_reread hu huread tab orderById, ← hreread,
    CatalogUnit.block_reread hv hvread tab orderById]

theorem length_of_readParts {κ ν : Type} {verdict : List κ → Element → Verdict κ ν}
    {seen : List κ} {ns : List Node} {ps : List (Part κ ν)} (htext : ∀ n ∈ ns, n.isText = false)
    (h : readParts verdict seen ns = some ps) : ps.length = ns.length := by
  induction ns generalizing seen ps with
  | nil =>
    cases h
    rfl
  | cons n ns ih =>
    have hrest : ∀ m ∈ ns, m.isText = false := fun m hm => htext m (List.mem_cons_of_mem n hm)
    cases n with
    | text s => cases htext _ List.mem_cons_self
    | comment s =>
      simp only [readParts, Option.map_eq_some_iff] at h
      obtain ⟨qs, hqs, rfl⟩ := h
      rw [List.length_cons, ih hrest hqs, List.length_cons]
    | element name attributes children =>
      rw [readParts] at h
      split at h
      · cases h
      all_goals
        simp only [Option.map_eq_some_iff] at h
        obtain ⟨qs, hqs, rfl⟩ := h
        rw [List.length_cons, ih hrest hqs, List.length_cons]

theorem Part.length_eq {κ ν : Type} (ps : List (Part κ ν)) :
    ps.length = (Part.nodes ps).length + (Part.entries ps).length := by
  induction ps with
  | nil => rfl
  | cons p ps ih =>
    cases p with
    | keyed k v =>
      rw [List.length_cons, ih, nodes_keyed, entries_keyed, List.length_cons]
      omega
    | foreign n =>
      rw [List.length_cons, ih, nodes_foreign, entries_foreign, List.length_cons]
      omega

namespace Document

/-- The foreign nodes of the body. -/
def foreignNodes (d : Document) : List Node := Part.nodes (d.body.map BodyNode.part)

/-- The units in natural order. -/
def sortedUnits (d : Document) : List (String × CatalogUnit) :=
  Text.sortNatural Prod.fst d.units.entries

variable {d : Document}

theorem mem_foreignNodes {n : Node} : n ∈ d.foreignNodes ↔ .foreign n ∈ d.body := by
  rw [foreignNodes, Part.mem_nodes, foreign_mem_parts]

theorem mem_sortedUnits {e : String × CatalogUnit} : e ∈ d.sortedUnits ↔ e ∈ d.units.entries :=
  (Text.sortNatural_perm Prod.fst d.units.entries).mem_iff

theorem nodup_sortedUnits (h : d.units.Distinct) : (d.sortedUnits.map Prod.fst).Nodup :=
  ((Text.sortNatural_perm Prod.fst d.units.entries).map Prod.fst).nodup_iff.2 h

theorem AsRead.distinct (h : d.AsRead) : d.units.Distinct := by
  obtain ⟨ps, hstable, hunits, -, -⟩ := h
  rw [Dict.Distinct, hunits]
  exact hstable.nodup.1

theorem written_sorted {layout : Layout} (hlayout : layout.orderById = true) :
    d.written layout =
      d.foreignNodes.map .foreign ++ d.sortedUnits.map fun e => .keyed e.1 e.2 := by
  rw [written, hlayout, Part.written_skip]
  rfl

theorem bodyBlocks_sorted {layout : Layout} (hlayout : layout.orderById = true) :
    d.bodyBlocks layout =
      d.foreignNodes.flatMap Node.blocks ++ d.sortedUnits.map fun e => e.2.block true e.1 := by
  rw [bodyBlocks, written_sorted hlayout, List.flatMap_append, List.flatMap_map,
    List.flatMap_map, hlayout, ← List.flatMap_singleton' (d.sortedUnits.map _), List.flatMap_map]
  rfl

/-- The nodes that the body of a sorted catalog is read as. -/
def sortedNodes (tab : Nat) (d : Document) : List Node :=
  d.foreignNodes.map (Node.reread tab 3) ++
    d.sortedUnits.map fun e => (e.2.element tab true e.1).toNode

theorem Sound.foreign (h : d.Sound) {n : Node} (hn : n ∈ d.foreignNodes) : n.Solid :=
  h.solid n (mem_foreignNodes.1 hn)

theorem map_node_sorted (h : d.Sound) {layout : Layout} (hlayout : layout.orderById = true) :
    (d.bodyBlocks layout).map (Block.node layout.tabWidth 3) = d.sortedNodes layout.tabWidth := by
  have hforeign : (d.foreignNodes.flatMap Node.blocks).map (Block.node layout.tabWidth 3) =
      d.foreignNodes.map (Node.reread layout.tabWidth 3) := by
    rw [← Node.blocksAll_eq_flatMap]
    exact Markup.map_node_blocksAll (fun n hn => (h.foreign hn).notText) layout.tabWidth 3
  rw [bodyBlocks_sorted hlayout, List.map_append, hforeign, List.map_map, sortedNodes]
  congr 1
  refine List.map_congr_left ?_
  intro e _
  exact CatalogUnit.node_block layout.tabWidth true e.2

theorem notText_sortedNodes (h : d.Sound) (tab : Nat) :
    ∀ n ∈ d.sortedNodes tab, n.isText = false := by
  intro n hn
  rcases List.mem_append.1 hn with hn | hn
  · obtain ⟨m, hm, rfl⟩ := List.mem_map.1 hn
    exact Node.isText_reread (h.foreign hm).notText tab 3
  · obtain ⟨e, -, rfl⟩ := List.mem_map.1 hn
    rfl

/-! ## Identifiers that are taken -/

theorem nodup_keys_of_readParts {ns : List Node} {ps : List (Part String CatalogUnit)}
    (h : readParts bodyVerdict [] ns = some ps) : (Part.keys ps).Nodup :=
  (stable_of_readParts (fun _ _ _ _ hv => (bodyVerdict_keyed hv).1) h).nodup.1


/-- The units whose identifiers are taken. -/
def displaced (d : Document) (taken : List String) : List (String × CatalogUnit) :=
  d.sortedUnits.filter fun e => decide (e.1 ∈ taken)

/-- A catalog whose foreign nodes take identifiers only for units that are written as those whose
identifiers they take, and before nodes that are written as these units. -/
def RepeatsSettled (tab : Nat) (d : Document) : Prop :=
  ∃ ps, readParts bodyVerdict [] (d.foreignNodes.map (Node.reread tab 3)) = some ps ∧
    (Part.nodes ps ++ (d.displaced (Part.keys ps)).map fun e =>
      (e.2.element tab true e.1).toNode).map Node.blocks = d.foreignNodes.map Node.blocks ∧
    ∀ id u v, .keyed id u ∈ ps → d.units.get? id = some v → u.block true id = v.block true id

section Taken

variable (h : d.Sound) (hread : d.AsRead) {tab : Nat} {ps : List (Part String CatalogUnit)}
variable (hps : readParts bodyVerdict [] (d.foreignNodes.map (Node.reread tab 3)) = some ps)
include h hread hps

/-- Foreign nodes take identifiers of units only. -/
theorem mem_keys_of_foreign {id : String} (hid : id ∈ Part.keys ps) : id ∈ d.units.keys := by
  obtain ⟨u, hu⟩ := Part.mem_keys.1 hid
  rcases mem_of_readParts hps hu with ⟨n, -, heq, -⟩ | ⟨e, j, v, seen, he, hverdict, heq⟩
  · cases heq
  · cases heq
    obtain ⟨n, hn, hreread⟩ := List.mem_map.1 he
    obtain ⟨-, hattribute, hunit, -⟩ := bodyVerdict_keyed hverdict
    obtain ⟨qs, hstable, hunits, hbody, -⟩ := hread
    have hpart : .foreign n ∈ qs := by
      have hmem := mem_foreignNodes.1 hn
      rw [hbody] at hmem
      exact foreign_mem_map_ofPart.1 hmem
    -- where the node was read it was foreign, so the identifier was taken
    obtain ⟨seen', hseen', hforeign⟩ := hstable.foreign hpart
    have hsolid := h.foreign hn
    have hverdict' := byHead_bodyVerdict.reread hsolid.tidy hsolid.notText tab 3 hforeign e
      (by rw [hreread]; rfl)
    rw [bodyVerdict_eq_foreign_iff] at hverdict'
    rcases hseen' id (hverdict' id hattribute hunit) with hk | hk
    · cases hk
    · rw [Dict.keys, hunits]
      exact hk

theorem length_displaced : (d.displaced (Part.keys ps)).length = (Part.entries ps).length := by
  have hnodup : ((d.displaced (Part.keys ps)).map Prod.fst).Nodup :=
    (List.filter_sublist.map Prod.fst).nodup (nodup_sortedUnits hread.distinct)
  have hperm : ((d.displaced (Part.keys ps)).map Prod.fst).Perm (Part.keys ps) := by
    rw [List.perm_ext_iff_of_nodup hnodup (nodup_keys_of_readParts hps)]
    intro id
    constructor
    · intro hid
      obtain ⟨e, he, rfl⟩ := List.mem_map.1 hid
      simpa using (List.mem_filter.1 he).2
    · intro hid
      obtain ⟨e, he, rfl⟩ := List.mem_map.1 (mem_keys_of_foreign h hread hps hid)
      refine List.mem_map_of_mem (List.mem_filter.2 ⟨mem_sortedUnits.2 he, by simpa using hid⟩)
  have hlength := hperm.length_eq
  rw [Part.keys, List.length_map, List.length_map] at hlength
  exact hlength

end Taken

/-! ## Sorted catalogs read back -/

theorem nodes_resorted (tab : Nat) (taken : List String) (es : List (String × CatalogUnit)) :
    Part.nodes (es.map (CatalogUnit.resorted tab taken)) =
      (es.filter fun e => decide (e.1 ∈ taken)).map fun e =>
        (e.2.element tab true e.1).toNode := by
  induction es with
  | nil => rfl
  | cons e es ih =>
    rw [List.map_cons, CatalogUnit.resorted]
    by_cases he : e.1 ∈ taken
    · rw [if_pos he, Part.nodes_foreign, ih, List.filter_cons_of_pos (by simpa using he),
        List.map_cons]
    · rw [if_neg he, Part.nodes_keyed, ih, List.filter_cons_of_neg (by simpa using he)]

theorem entries_resorted (tab : Nat) (taken : List String) (es : List (String × CatalogUnit)) :
    Part.entries (es.map (CatalogUnit.resorted tab taken)) =
      (es.filter fun e => decide (e.1 ∉ taken)).map fun e => (e.1, e.2.reread tab true) := by
  induction es with
  | nil => rfl
  | cons e es ih =>
    rw [List.map_cons, CatalogUnit.resorted]
    by_cases he : e.1 ∈ taken
    · rw [if_pos he, Part.entries_foreign, ih, List.filter_cons_of_neg (by simpa using he)]
    · rw [if_neg he, Part.entries_keyed, ih, List.filter_cons_of_pos (by simpa using he),
        List.map_cons]

/-- The parts that a sorted catalog is read as, if its foreign nodes are read as given parts. -/
def resortedParts (tab : Nat) (d : Document) (ps : List (Part String CatalogUnit)) :
    List (Part String CatalogUnit) :=
  ps ++ d.sortedUnits.map (CatalogUnit.resorted tab (Part.keys ps))

/-- What a sorted catalog is read as, if its foreign nodes are read as given parts. -/
def resorted (layout : Layout) (d : Document) (header : Header)
    (ps : List (Part String CatalogUnit)) : Document :=
  (d.rereadHead layout header).addParts (d.resortedParts layout.tabWidth ps)

theorem readParts_sortedNodes_again (h : d.Sound) (hdistinct : d.units.Distinct) (tab : Nat) :
    readParts bodyVerdict [] (d.sortedNodes tab) =
      (readParts bodyVerdict [] (d.foreignNodes.map (Node.reread tab 3))).map fun ps =>
        ps ++ d.sortedUnits.map (CatalogUnit.againUnless tab (Part.keys ps)) := by
  have hunits (taken : List String) := readParts_units (nodup_sortedUnits hdistinct)
    (fun e he => h.units e.1 e.2 (mem_sortedUnits.1 he)) tab taken
  rw [sortedNodes, readParts_append]
  cases readParts bodyVerdict [] (d.foreignNodes.map (Node.reread tab 3)) with
  | none => rfl
  | some ps =>
    rw [Option.bind_some, hunits, Option.map_some, Option.map_some]
    rfl

theorem readParts_sortedNodes (h : d.Sound) (hread : d.AsRead) (tab : Nat) :
    readParts bodyVerdict [] (d.sortedNodes tab) =
      (readParts bodyVerdict [] (d.foreignNodes.map (Node.reread tab 3))).map
        (d.resortedParts tab) := by
  have hsame (taken : List String) : d.sortedUnits.map (CatalogUnit.againUnless tab taken) =
      d.sortedUnits.map (CatalogUnit.resorted tab taken) := by
    refine List.map_congr_left fun e he => ?_
    have hmem := mem_sortedUnits.1 he
    exact CatalogUnit.againUnless_eq_resorted (h.units e.1 e.2 hmem) (hread.unit hmem) tab taken
  rw [readParts_sortedNodes_again h hread.distinct]
  simp only [hsame]
  rfl

/-- The text of a sorted catalog is read as the parts of its foreign nodes and its units. -/
theorem parse_render_sorted (h : d.Sound) (hread : d.AsRead) {layout : Layout}
    (hlayout : layout.orderById = true) (path : String) (header : Header) :
    parse path (render layout d header) =
      match readParts bodyVerdict [] (d.foreignNodes.map (Node.reread layout.tabWidth 3)) with
      | none => .error (.unsupportedStructure path)
      | some ps => .ok (d.resorted layout header ps) := by
  rw [parse_render_eq h, map_node_sorted h hlayout, readParts_sortedNodes h hread]
  cases readParts bodyVerdict [] (d.foreignNodes.map (Node.reread layout.tabWidth 3)) <;> rfl

theorem entries_againUnless (tab : Nat) (taken : List String) (es : List (String × CatalogUnit)) :
    Part.entries (es.map (CatalogUnit.againUnless tab taken)) =
      (es.filter fun e => decide (e.1 ∉ taken)).map fun e => (e.1, e.2.again tab true e.1) := by
  induction es with
  | nil => rfl
  | cons e es ih =>
    rw [List.map_cons, CatalogUnit.againUnless]
    by_cases he : e.1 ∈ taken
    · rw [if_pos he, Part.entries_foreign, ih, List.filter_cons_of_neg (by simpa using he)]
    · rw [if_neg he, Part.entries_keyed, ih, List.filter_cons_of_pos (by simpa using he),
        List.map_cons]

theorem foreignNodes_eq {ps : List (Part String CatalogUnit)}
    (h : d.body = ps.map BodyNode.ofPart) : d.foreignNodes = Part.nodes ps := by
  have hparts : (ps.map BodyNode.ofPart).map BodyNode.part = ps.map Part.erase := by
    rw [List.map_map]
    exact List.map_congr_left fun p _ => part_ofPart p
  rw [foreignNodes, h, hparts, Part.nodes_erase]

theorem foreignNodes_resorted (layout : Layout) (header : Header)
    (ps : List (Part String CatalogUnit)) :
    (d.resorted layout header ps).foreignNodes =
      Part.nodes ps ++ (d.displaced (Part.keys ps)).map fun e =>
        (e.2.element layout.tabWidth true e.1).toNode := by
  have hbody : (d.resorted layout header ps).body =
      (d.resortedParts layout.tabWidth ps).map BodyNode.ofPart := by
    simp [resorted, addParts, rereadHead]
  rw [foreignNodes_eq hbody, resortedParts, Part.nodes_append, nodes_resorted, displaced]

/-- The unit that takes the place of a unit. -/
def successor (tab : Nat) (ps : List (Part String CatalogUnit)) (e : String × CatalogUnit) :
    CatalogUnit :=
  ((⟨Part.entries ps⟩ : Dict String CatalogUnit).get? e.1).getD (e.2.reread tab true)

theorem successor_of_mem {tab : Nat} {ps : List (Part String CatalogUnit)}
    (hnodup : (Part.keys ps).Nodup) {id : String} {u : CatalogUnit} (hu : .keyed id u ∈ ps)
    (v : CatalogUnit) : successor tab ps (id, v) = u := by
  have hdistinct : (⟨Part.entries ps⟩ : Dict String CatalogUnit).Distinct := hnodup
  rw [successor, (Dict.get?_eq_some_iff hdistinct).2 (Part.mem_entries.2 hu), Option.getD_some]

theorem successor_of_not_mem {tab : Nat} {ps : List (Part String CatalogUnit)} {id : String}
    (hid : id ∉ Part.keys ps) (v : CatalogUnit) :
    successor tab ps (id, v) = v.reread tab true := by
  have hnone : (⟨Part.entries ps⟩ : Dict String CatalogUnit).get? id = none := by
    cases hget : (⟨Part.entries ps⟩ : Dict String CatalogUnit).get? id with
    | none => rfl
    | some u =>
      exact absurd (Part.mem_keys.2 ⟨u, Part.mem_entries.1 (Dict.mem_of_get? hget)⟩) hid
  rw [successor, hnone, Option.getD_none]

/-- The units that are read and those that give way to them differ in order only. -/
theorem mem_entries_resorted_iff (h : d.Sound) (hread : d.AsRead) {layout : Layout}
    {ps : List (Part String CatalogUnit)}
    (hps : readParts bodyVerdict [] (d.foreignNodes.map (Node.reread layout.tabWidth 3)) = some ps)
    (header : Header) (e : String × CatalogUnit) :
    e ∈ (d.resorted layout header ps).units.entries ↔
      e ∈ d.units.entries.map fun e => (e.1, successor layout.tabWidth ps e) := by
  have hnodup := nodup_keys_of_readParts hps
  have hentries : (d.resorted layout header ps).units.entries = Part.entries ps ++
      (d.sortedUnits.filter fun e => decide (e.1 ∉ Part.keys ps)).map fun e =>
        (e.1, e.2.reread layout.tabWidth true) := by
    rw [← entries_resorted]
    simp [resorted, addParts, rereadHead, resortedParts, Dict.empty]
  obtain ⟨id, w⟩ := e
  rw [hentries, List.mem_append, List.mem_map, List.mem_map]
  constructor
  · rintro (hw | ⟨⟨j, v⟩, hv, heq⟩)
    · have hw := Part.mem_entries.1 hw
      have hid : id ∈ d.units.keys :=
        mem_keys_of_foreign h hread hps (Part.mem_keys.2 ⟨w, hw⟩)
      obtain ⟨⟨j, v⟩, hv, rfl⟩ := List.mem_map.1 hid
      exact ⟨(j, v), hv, by rw [successor_of_mem hnodup hw]⟩
    · obtain ⟨hv, hj⟩ := List.mem_filter.1 hv
      refine ⟨(j, v), mem_sortedUnits.1 hv, ?_⟩
      rw [successor_of_not_mem (by simpa using hj)]
      exact heq
  · rintro ⟨⟨j, v⟩, hv, heq⟩
    cases heq
    by_cases hj : j ∈ Part.keys ps
    · obtain ⟨u, hu⟩ := Part.mem_keys.1 hj
      rw [successor_of_mem hnodup hu]
      exact .inl (Part.mem_entries.2 hu)
    · rw [successor_of_not_mem hj]
      exact .inr ⟨(j, v), List.mem_filter.2 ⟨mem_sortedUnits.2 hv, by simpa using hj⟩, rfl⟩

theorem nodup_keys_resorted (h : d.Sound) (hread : d.AsRead) {layout : Layout}
    {ps : List (Part String CatalogUnit)}
    (hps : readParts bodyVerdict [] (d.foreignNodes.map (Node.reread layout.tabWidth 3)) = some ps)
    (header : Header) : ((d.resorted layout header ps).units.entries.map Prod.fst).Nodup := by
  have hall := readParts_sortedNodes h hread layout.tabWidth
  rw [hps, Option.map_some] at hall
  have hunits : (d.resorted layout header ps).units.entries =
      Part.entries (d.resortedParts layout.tabWidth ps) := by
    simp [resorted, addParts, rereadHead, Dict.empty]
  rw [hunits]
  exact nodup_keys_of_readParts hall

/-- The units keep their order, and those that took an identifier stand for those that had it. -/
theorem sortedUnits_resorted (h : d.Sound) (hread : d.AsRead) {layout : Layout}
    {ps : List (Part String CatalogUnit)}
    (hps : readParts bodyVerdict [] (d.foreignNodes.map (Node.reread layout.tabWidth 3)) = some ps)
    (header : Header) :
    (d.resorted layout header ps).sortedUnits =
      d.sortedUnits.map fun e => (e.1, successor layout.tabWidth ps e) := by
  have hentriesNodup := nodup_keys_resorted h hread hps header
  have hunitsNodup : ((d.units.entries.map fun e =>
      (e.1, successor layout.tabWidth ps e)).map Prod.fst).Nodup := by
    rw [List.map_map]
    exact hread.distinct
  have hperm := (List.perm_ext_iff_of_nodup (List.Nodup.of_map _ hentriesNodup)
    (List.Nodup.of_map _ hunitsNodup)).2 (mem_entries_resorted_iff h hread hps header)
  -- no identifier stands twice in the entries, so their order does not matter
  have happart : ∀ a ∈ (d.resorted layout header ps).units.entries,
      ∀ b ∈ (d.resorted layout header ps).units.entries, a.1 = b.1 → a = b :=
    fun a ha b hb => List.inj_on_of_nodup_map hentriesNodup ha hb
  rw [sortedUnits, Text.sortNatural_eq_of_perm Prod.fst hperm happart]
  refine Text.sortNatural_map Prod.fst ?_ d.units.entries
  exact fun e => rfl

/-! ## Texts of sorted catalogs -/

theorem fileElement_eq_of_render {d' : Document} (h : d.Sound) (h' : d'.Sound) {layout : Layout}
    {header header' : Header} (heq : render layout d' header' = render layout d header) :
    d'.fileElement layout header' = d.fileElement layout header := by
  have hroot := h'.parse_render layout header'
  rw [heq, h.parse_render layout header] at hroot
  have helements := congrArg Element.elements (Except.ok.inj hroot)
  rw [elements_root, elements_root] at helements
  exact (List.singleton_inj.1 helements).symm

theorem attributes_eq_of_render {d' : Document} (h : d.Sound) (h' : d'.Sound) {layout : Layout}
    {header header' : Header} (heq : render layout d' header' = render layout d header)
    (hattributes : d'.fileAttributes = d.fileAttributes) :
    header'.attributes = header.attributes := by
  have hmerge : mergeAttributes header'.attributes d'.fileAttributes =
      mergeAttributes header.attributes d.fileAttributes :=
    congrArg Element.attributes (fileElement_eq_of_render h h' heq)
  rw [h'.fileAttributes.merge header'.mem_attributes, h.fileAttributes.merge header.mem_attributes,
    hattributes] at hmerge
  exact List.append_cancel_right hmerge

theorem sortedNodes_eq_of_render {d' : Document} (h : d.Sound) (h' : d'.Sound) {layout : Layout}
    (hlayout : layout.orderById = true) {header header' : Header}
    (heq : render layout d' header' = render layout d header) :
    d'.sortedNodes layout.tabWidth = d.sortedNodes layout.tabWidth := by
  have hnodes := congrArg (Node.notTexts ∘ bodyNodes) (fileElement_eq_of_render h h' heq)
  simp only [Function.comp_apply, bodyNodes_fileElement h, bodyNodes_fileElement h',
    Block.notTexts_contents, map_node_sorted h hlayout, map_node_sorted h' hlayout] at hnodes
  rwa [Node.notTexts_eq_self (notText_sortedNodes h' _),
    Node.notTexts_eq_self (notText_sortedNodes h _)] at hnodes

theorem map_blocks_reread (h : d.Sound) (tab : Nat) :
    (d.foreignNodes.map (Node.reread tab 3)).map Node.blocks = d.foreignNodes.map Node.blocks := by
  rw [List.map_map]
  refine List.map_congr_left ?_
  intro n hn
  exact (h.foreign hn).tidy.blocks_reread (h.foreign hn).named tab 3

section Resorted

variable (h : d.Sound) (hread : d.AsRead) {layout : Layout} (hlayout : layout.orderById = true)
variable {ps : List (Part String CatalogUnit)}
variable (hps : readParts bodyVerdict [] (d.foreignNodes.map (Node.reread layout.tabWidth 3)) =
  some ps)
include h hread hps

theorem length_foreignNodes_resorted (header : Header) :
    (d.resorted layout header ps).foreignNodes.length = d.foreignNodes.length := by
  have htext : ∀ n ∈ d.foreignNodes.map (Node.reread layout.tabWidth 3), n.isText = false := by
    intro n hn
    obtain ⟨m, hm, rfl⟩ := List.mem_map.1 hn
    exact Node.isText_reread (h.foreign hm).notText layout.tabWidth 3
  have hlength := length_of_readParts htext hps
  rw [List.length_map, Part.length_eq] at hlength
  rw [foreignNodes_resorted, List.length_append, List.length_map, length_displaced h hread hps,
    hlength]

include hlayout

/-- A sorted catalog that was read back is written the same if its header is and if the identifiers
that foreign nodes have taken make no difference. -/
theorem render_resorted_iff {header header' : Header}
    (h' : (d.resorted layout header ps).Sound) (hread' : (d.resorted layout header ps).AsRead) :
    render layout (d.resorted layout header ps) header' = render layout d header ↔
      header'.attributes = header.attributes ∧
        (d.resorted layout header ps).foreignNodes.map Node.blocks =
          d.foreignNodes.map Node.blocks ∧
        ∀ id u v, .keyed id u ∈ ps → d.units.get? id = some v →
          u.block true id = v.block true id := by
  have hnodup := nodup_keys_of_readParts hps
  have hsorted := sortedUnits_resorted h hread hps header
  constructor
  · intro heq
    have hnodes := sortedNodes_eq_of_render h h' hlayout heq
    have hlength := length_foreignNodes_resorted h hread hps header
    obtain ⟨hforeign, hunits⟩ := List.append_inj hnodes (by simpa using hlength)
    refine ⟨attributes_eq_of_render h h' heq rfl, ?_, ?_⟩
    · rw [← map_blocks_reread h' layout.tabWidth, hforeign, map_blocks_reread h]
    · intro id u v hu hv
      have hmem : (id, v) ∈ d.sortedUnits := mem_sortedUnits.2 (Dict.mem_of_get? hv)
      have hmem' : (id, u) ∈ (d.resorted layout header ps).units.entries := by
        rw [← mem_sortedUnits, hsorted, ← successor_of_mem hnodup hu v]
        exact List.mem_map_of_mem (f := fun e => (e.1, successor layout.tabWidth ps e)) hmem
      rw [hsorted, List.map_map] at hunits
      have helement := List.map_inj_left.1 hunits (id, v) hmem
      simp only [Function.comp_apply, successor_of_mem hnodup hu] at helement
      exact CatalogUnit.block_eq_of_element (h'.units id u hmem') (hread'.unit hmem')
        (h.units id v (mem_sortedUnits.1 hmem)) (hread.unit (mem_sortedUnits.1 hmem))
        (Markup.toNode_inj.1 helement)
  · rintro ⟨hheader, hforeign, hunits⟩
    refine render_congr hheader rfl (blocksAll_reread h layout.tabWidth 2) ?_
    have hblocks : ∀ e ∈ d.sortedUnits,
        (successor layout.tabWidth ps e).block true e.1 = e.2.block true e.1 := by
      rintro ⟨id, v⟩ he
      have hentry := mem_sortedUnits.1 he
      by_cases hid : id ∈ Part.keys ps
      · obtain ⟨u, hu⟩ := Part.mem_keys.1 hid
        rw [successor_of_mem hnodup hu]
        exact hunits id u v hu ((Dict.get?_eq_some_iff hread.distinct).2 hentry)
      · rw [successor_of_not_mem hid]
        exact CatalogUnit.block_reread (h.units id v hentry) (hread.unit hentry) _ true
    rw [bodyBlocks_sorted hlayout, bodyBlocks_sorted hlayout, List.flatMap_def, List.flatMap_def,
      hforeign, hsorted, List.map_map]
    congr 1
    exact List.map_congr_left hblocks

end Resorted

/-- Foreign nodes without identifiers stay foreign when they are read first. -/
theorem readParts_foreignNodes (h : d.Sound) (tab : Nat)
    (hforeign : ∀ n ∈ d.foreignNodes, ∀ e, n.element? = some e → IsUnitElement e →
      e.attribute? "id" = none) :
    readParts bodyVerdict [] (d.foreignNodes.map (Node.reread tab 3)) =
      some ((d.foreignNodes.map (Node.reread tab 3)).map .foreign) := by
  have hread (ns : List Node) (hns : ∀ n ∈ ns, n ∈ d.foreignNodes) :
      readParts bodyVerdict [] (ns.map (Node.reread tab 3)) =
        some ((ns.map (Node.reread tab 3)).map .foreign) := by
    induction ns with
    | nil => rfl
    | cons n ns ih =>
      have hn := hns n List.mem_cons_self
      have hsolid := h.foreign hn
      have hverdict : ∀ e, n.element? = some e → bodyVerdict [] e = .foreign := by
        intro e he
        rw [bodyVerdict_eq_foreign_iff]
        intro id hid hunit
        rw [hforeign n hn e he hunit] at hid
        cases hid
      rw [List.map_cons, readParts_of_foreign (Node.isText_reread hsolid.notText tab 3)
        (byHead_bodyVerdict.reread hsolid.tidy hsolid.notText tab 3 hverdict),
        ih fun m hm => hns m (List.mem_cons_of_mem n hm), Option.map_some, List.map_cons]
  exact hread d.foreignNodes fun n hn => hn

/-- A catalog of which no foreign node is a unit with an identifier is settled. -/
theorem repeatsSettled_of_foreign (h : d.Sound) (tab : Nat)
    (hforeign : ∀ n ∈ d.foreignNodes, ∀ e, n.element? = some e → IsUnitElement e →
      e.attribute? "id" = none) : d.RepeatsSettled tab := by
  refine ⟨_, readParts_foreignNodes h tab hforeign, ?_, ?_⟩
  · have hkeys : Part.keys ((d.foreignNodes.map (Node.reread tab 3)).map .foreign :
        List (Part String CatalogUnit)) = [] := by
      rw [Part.keys, Part.entries_map_foreign, List.map_nil]
    rw [hkeys, displaced, Part.nodes_map_foreign]
    simpa using map_blocks_reread h tab
  · intro id u v hu
    simp at hu

end Document

end TranslationAudit.Catalog
