import TranslationAudit.Proofs.Catalog.Files
import TranslationAudit.Proofs.Catalog.Lookup
import TranslationAudit.Proofs.Catalog.Sorted

/-! # New units read back

An addition becomes a unit without recorded children. Once written and read, its texts and its note
are children, and its fields are those that were meant.

* `Addition.readBack`, `Addition.readUnit_unit`: what the unit of an addition is read as.
* `Document.LeavesFree`: catalogs in which no foreign node takes an identifier from its unit.
* `Document.exists_parse_insert`: the unit of an addition is read back at its identifier.
* `Addition.Shows`: the unit that an addition is meant to be.
* `addition_reads_back`: what is read back is what was meant.
-/

namespace TranslationAudit.Catalog

open Markup (Block Element Node inlineChildren)

/-! ## The unit of an addition -/

def Note.node (n : Note) : Node :=
  .element "note" (n.author.map fun a => ("from", a)).toList (inlineChildren n.content)

theorem foldl_noteNode (ns : List Note) (u : TransUnit) :
    (ns.map Note.node).foldl readUnitChild u =
      { u with children := u.children ++ ns.map fun n => .foreign n.node } := by
  have hforeign (n : Note) : IsForeign n.node := by
    intro e he
    cases he
    exact ⟨(by decide : "note" ≠ "source"), (by decide : "note" ≠ "target")⟩
  induction ns generalizing u with
  | nil => simp
  | cons n ns ih =>
    rw [List.map_cons, List.foldl_cons, readUnitChild_foreign rfl (hforeign n), ih]
    simp

namespace Addition

variable {a : Addition}

/-- What the unit of an addition is read as. Its texts and its notes have become children. -/
def readBack (settings : WriterSettings) (writesTarget : Bool) (a : Addition) : TransUnit :=
  { a.unit settings writesTarget with
    children := (if writesTarget then [.source, .target] else [.source]) ++
      (a.notes settings).map fun n => .foreign n.node
    notes := [] }

theorem parts_unit (htarget : a.target ≠ "") (settings : WriterSettings) (writesTarget : Bool) :
    (a.unit settings writesTarget).parts =
      if writesTarget then [.source, .target] else [.source] := by
  have hempty : a.target.isEmpty = false := by simpa using htarget
  cases writesTarget with
  | true => simp [unit, translatedUnit, TransUnit.parts, hempty]
  | false => simp [unit, sourceUnit, TransUnit.parts]

theorem readUnit_unit (htarget : a.target ≠ "") (settings : WriterSettings) (writesTarget : Bool)
    (id : String) (tab level : Nat) :
    readUnit ⟨"trans-unit", (a.unit settings writesTarget).allAttributes id,
        Block.contents tab level (a.unit settings writesTarget).innerBlocks⟩ =
      a.readBack settings writesTarget := by
  have hsound := a.sound_unit settings writesTarget
  have hempty : a.target.isEmpty = false := by simpa using htarget
  have hparts := parts_unit htarget settings writesTarget
  have hwritten : .target ∈ (a.unit settings writesTarget).parts →
      (!(a.unit settings writesTarget).hasTarget &&
        ((a.unit settings writesTarget).target.getD "").isEmpty) = false := by
    rw [hparts]
    cases writesTarget <;> simp [unit, translatedUnit, hempty]
  have hnotes (tab level : Nat) (ns : List Note) :
      (ns.map TransUnit.noteBlock).map (Block.node tab level) = ns.map Note.node := by
    rw [List.map_map]
    rfl
  rw [TransUnit.readUnit_contents hsound, TransUnit.innerBlocks, List.map_append,
    TransUnit.map_node_parts hsound hwritten, hnotes, List.foldl_append,
    TransUnit.foldl_partNode hsound tab (level + 1) fun n => TransUnit.foreign_mem_parts,
    foldl_noteNode, hparts]
  cases writesTarget with
  | true =>
    simp [readBack, unit, translatedUnit, UnitChild.isSource, UnitChild.isTarget,
      TransUnit.rereadChild, hempty]
  | false =>
    simp [readBack, unit, sourceUnit, UnitChild.isSource, UnitChild.isTarget,
      TransUnit.rereadChild, hempty]

end Addition

namespace Document

variable {d d' : Document} {layout : Layout}

/-! ## Units behind foreign nodes -/

/-- A sorted catalog is read with all units whose identifiers no foreign node takes. -/
theorem exists_parse_sorted (h : d.Sound) (hdistinct : d.units.Distinct)
    (hlayout : layout.orderById = true) {ps : List (Part String CatalogUnit)}
    (hps : readParts bodyVerdict [] (d.foreignNodes.map (Node.reread layout.tabWidth 3)) = some ps)
    (path : String) (header : Header) :
    ∃ d', parse path (render layout d header) = .ok d' ∧ ∀ id, id ∉ Part.keys ps →
      d'.units.get? id = (d.units.get? id).map (CatalogUnit.again layout.tabWidth true id) := by
  have hparse : parse path (render layout d header) = .ok ((d.rereadHead layout header).addParts
      (ps ++ d.sortedUnits.map (CatalogUnit.againUnless layout.tabWidth (Part.keys ps)))) := by
    rw [parse_render_eq h, map_node_sorted h hlayout, readParts_sortedNodes_again h hdistinct, hps]
    rfl
  refine ⟨_, hparse, fun id hid => ?_⟩
  have hdistinct' := (keyed_of_parse hparse).distinct
  have hnone (v : CatalogUnit) : (id, v) ∉ Part.entries ps :=
    fun hv => hid (List.mem_map_of_mem hv)
  apply Option.ext
  intro v
  rw [Dict.get?_eq_some_iff hdistinct', Option.map_eq_some_iff]
  simp only [addParts, rereadHead, Dict.empty, List.nil_append, Part.entries_append,
    entries_againUnless, List.mem_append, hnone, false_or, List.mem_map, List.mem_filter,
    mem_sortedUnits]
  constructor
  · rintro ⟨⟨other, u⟩, ⟨hu, -⟩, heq⟩
    cases heq
    exact ⟨u, (Dict.get?_eq_some_iff hdistinct).2 hu, rfl⟩
  · rintro ⟨u, hu, rfl⟩
    exact ⟨(id, u), ⟨Dict.mem_of_get? hu, by simpa using hid⟩, rfl⟩

/-- Catalogs whose foreign nodes leave an identifier, and the group that it may be a form of, to the
units that have them: foreign nodes keep their places, or they can be read in front of all units
without taking these identifiers. -/
def LeavesFree (layout : Layout) (d : Document) (id : String) : Prop :=
  layout.orderById = true →
    ∃ ps, readParts bodyVerdict [] (d.foreignNodes.map (Node.reread layout.tabWidth 3)) = some ps ∧
      id ∉ Part.keys ps ∧ ∀ base n, splitPluralForm id = some (base, n) → base ∉ Part.keys ps

/-- Catalogs that repeat nothing, or that keep what they repeat in place, leave all identifiers. -/
theorem leavesFree_of_inPlace (h : d.Sound)
    (hplace : ∀ other, d.Repeats other → layout.orderById = false) (id : String) :
    d.LeavesFree layout id := by
  intro hlayout
  have hforeign : ∀ n ∈ d.foreignNodes, ∀ e, n.element? = some e → IsUnitElement e →
      e.attribute? "id" = none := by
    intro n hn e he hunit
    refine Option.eq_none_iff_forall_ne_some.2 fun other hother => ?_
    have hkept := hplace other ⟨n, e, mem_foreignNodes.1 hn, he, hunit, hother⟩
    rw [hlayout] at hkept
    cases hkept
  have hkeys (other : String) : other ∉ Part.keys ((d.foreignNodes.map
      (Node.reread layout.tabWidth 3)).map .foreign : List (Part String CatalogUnit)) := by
    rw [Part.keys, Part.entries_map_foreign]
    exact List.not_mem_nil
  exact ⟨_, readParts_foreignNodes h layout.tabWidth hforeign, hkeys id, fun base _ _ => hkeys base⟩

theorem exists_parse_extended (hread : d.AsRead) (h : d.Extended d') {id : String}
    (hfree : d.LeavesFree layout id) (path : String) (header : Header) :
    ∃ d'', parse path (render layout d' header) = .ok d'' ∧ ∀ other,
      (other = id ∨ ∃ n, splitPluralForm id = some (other, n)) →
        d''.units.get? other =
          (d'.units.get? other).map (CatalogUnit.again layout.tabWidth layout.orderById other) := by
  cases hlayout : layout.orderById with
  | false =>
    have hstable := (h.edited hread).stable hread (h.keepsRepeats hread fun _ _ => hlayout)
    refine ⟨_, parse_render_again h.sound hstable path header, fun other _ => ?_⟩
    rw [get?_again h.distinct, hlayout]
  | true =>
    obtain ⟨ps, hps, hid, hbase⟩ := hfree hlayout
    have hforeign : d'.foreignNodes = d.foreignNodes := by
      rw [foreignNodes, h.body, foreignNodes]
    rw [← hforeign] at hps
    obtain ⟨d'', hparse, hget⟩ := exists_parse_sorted h.sound h.distinct hlayout hps path header
    refine ⟨d'', hparse, ?_⟩
    rintro other (rfl | ⟨n, hsplit⟩)
    · exact hget other hid
    · exact hget other (hbase other n hsplit)

/-- The unit at an identifier: form 0 of a group that it names, and otherwise what is found. -/
def unitAt? (d : Document) (id : String) : Option TransUnit :=
  match splitPluralForm id, d.units.get? id with
  | none, some (.plural g) => g.forms.get? 0
  | _, _ => d.find? id

theorem unitAt?_single {id : String} {u : TransUnit} (h : d.units.get? id = some (.single u)) :
    d.unitAt? id = some u := by
  unfold unitAt?
  rw [h]
  cases splitPluralForm id <;> exact find?_single h

theorem unitAt?_plural {id : String} {g : PluralGroup} (hsplit : splitPluralForm id = none)
    (h : d.units.get? id = some (.plural g)) : d.unitAt? id = g.forms.get? 0 := by
  rw [unitAt?, hsplit, h]

theorem unitAt?_form {id base : String} {n : Nat} (hsplit : splitPluralForm id = some (base, n))
    (hsingle : ¬d.HasSingle id) : d.unitAt? id = d.form? base n := by
  rw [unitAt?, hsplit]
  exact (find?_form hsingle).trans (by rw [hsplit]; rfl)

theorem get?_again_withForm {g : PluralGroup} {i : Nat} {settings : WriterSettings} {a : Addition}
    {writesTarget : Bool} (htarget : a.target ≠ "")
    (h : (g.withForm i (a.unit settings writesTarget)).forms.Ascending) (tab : Nat)
    (orderById : Bool) (base : String) :
    ((g.withForm i (a.unit settings writesTarget)).again tab orderById base).forms.get? i =
      some (a.readBack settings writesTarget) := by
  have hadded : (g.withForm i (a.unit settings writesTarget)).forms.get? i =
      some (a.unit settings writesTarget) := by
    rw [PluralGroup.withForm, SortedMap.get?_insert, if_pos rfl]
  rw [PluralGroup.get?_again h, hadded, Option.map_some, PluralGroup.formElement,
    Addition.readUnit_unit htarget]

theorem exists_parse_insert (hsound : d.Sound) (hread : d.AsRead) {settings : WriterSettings}
    {a : Addition} (htarget : a.target ≠ "") {writesTarget : Bool}
    (hnew : d.find? a.key.id = none)
    (hinserted : (d.insert a.key.id (a.unit settings writesTarget)).2 = true)
    (hfree : d.LeavesFree layout a.key.id) (path : String) (header : Header) :
    ∃ d'', parse path
        (render layout (d.insert a.key.id (a.unit settings writesTarget)).1 header) = .ok d'' ∧
      d''.unitAt? a.key.id = some (a.readBack settings writesTarget) := by
  have hextended : d.Extended (d.insert a.key.id (a.unit settings writesTarget)).1 :=
    Extended.insert ⟨hsound, hread.distinct, rfl, fun _ h => h⟩ a.key.id
      (a.sound_unit settings writesTarget)
  obtain ⟨d'', hparse, hget⟩ := exists_parse_extended hread hextended hfree path header
  have hid := hget a.key.id (.inl rfl)
  refine ⟨d'', hparse, ?_⟩
  rcases insert_placed hinserted with ⟨base, i, g, hform, hg, hinsert⟩ | ⟨-, -, hinsert⟩
  · have hbase : (d.insert a.key.id (a.unit settings writesTarget)).1.units.get? base =
        some (.plural (g.withForm i (a.unit settings writesTarget))) := by
      rw [hinsert, Dict.get?_insert, if_pos rfl]
    have hback := get?_again_withForm htarget (hextended.sound.group hbase).ascending
      layout.tabWidth layout.orderById base
    rcases hform with hsplit | ⟨hsplit, -, -, rfl, rfl⟩
    · have hgroup := hget base (.inr ⟨i, hsplit⟩)
      rw [hbase, Option.map_some] at hgroup
      -- the identifier was not found, so no single unit stands before the form
      have hsingle : ¬d''.HasSingle a.key.id := by
        rintro ⟨v, hv⟩
        obtain ⟨w, hw, heq⟩ := Option.map_eq_some_iff.1 (hid.symm.trans hv)
        rw [hinsert, Dict.get?_insert] at hw
        cases w with
        | plural g' => cases heq
        | single u =>
          split at hw
          · cases hw
          · exact not_hasSingle_of_find? hnew ⟨u, hw⟩
      rw [unitAt?_form hsplit hsingle, form?_plural hgroup, hback]
    · rw [hbase, Option.map_some] at hid
      rw [unitAt?_plural hsplit hid, hback]
  · rw [hinsert, Dict.get?_insert, if_pos rfl, Option.map_some, CatalogUnit.again,
      CatalogUnit.element, Addition.readUnit_unit htarget] at hid
    exact unitAt?_single hid

end Document

/-! ## What an addition shows -/

/-- Whether one of the fields of a provenance is non-empty. -/
def Provenance.Known (p : Provenance) : Prop :=
  p.provider.getD "" ≠ "" ∨ p.model.getD "" ≠ "" ∨ p.generatedAt.getD "" ≠ ""

def Provenance.noteParts (p : Provenance) : List String :=
  notePart "provider" p.provider ++ notePart "model" p.model ++ notePart "generated" p.generatedAt

def Provenance.noteNode (p : Provenance) : Node :=
  .element "note" [("from", noteAuthor)] [.text (" ".intercalate p.noteParts)]

theorem notePart_eq_nil {name : String} {value : Option String} :
    notePart name value = [] ↔ value.getD "" = "" := by
  cases value with
  | none => simp [notePart]
  | some v => by_cases hv : v = "" <;> simp [notePart, hv]

theorem Provenance.noteParts_ne_nil {p : Provenance} : p.noteParts ≠ [] ↔ p.Known := by
  simp only [noteParts, ne_eq, List.append_eq_nil_iff, notePart_eq_nil, Known, not_and_or, or_assoc]

theorem Provenance.note?_eq (p : Provenance) :
    p.note? = if p.noteParts.isEmpty then none
      else some ⟨some noteAuthor, " ".intercalate p.noteParts⟩ := rfl

/-- No part of a note is empty, and neither is the note. -/
theorem Provenance.intercalate_ne_empty {p : Provenance} (h : p.noteParts ≠ []) :
    " ".intercalate p.noteParts ≠ "" := by
  have hpart : ∀ s ∈ p.noteParts, s ≠ "" := by
    have hnamed {name : String} (value : Option String) (hname : name ≠ "") :
        ∀ s ∈ notePart name value, s ≠ "" := by
      intro s hs hempty
      obtain ⟨v, -, rfl⟩ := List.mem_map.1 hs
      simp at hempty
    intro s hs
    simp only [noteParts, List.mem_append] at hs
    rcases hs with (hs | hs) | hs
    · exact hnamed _ (by decide) s hs
    · exact hnamed _ (by decide) s hs
    · exact hnamed _ (by decide) s hs
  cases hparts : p.noteParts with
  | nil => exact absurd hparts h
  | cons s ss =>
    have hs := hpart s (hparts ▸ List.mem_cons_self)
    cases ss with
    | nil => simpa using hs
    | cons s' ss => simp [String.intercalate_cons_cons]

/-- The note about a provenance is read as its node, if something is known. -/
theorem Provenance.node_note? {p : Provenance} {n : Node} :
    n ∈ p.note?.map Note.node ↔ p.Known ∧ n = p.noteNode := by
  rw [note?_eq, ← noteParts_ne_nil]
  by_cases hparts : p.noteParts = []
  · simp [hparts]
  · have htext : inlineChildren (" ".intercalate p.noteParts) =
        [.text (" ".intercalate p.noteParts)] := by
      simp [inlineChildren, intercalate_ne_empty hparts]
    have hnode : Note.node ⟨some noteAuthor, " ".intercalate p.noteParts⟩ = p.noteNode := by
      rw [Note.node, noteNode, htext]
      rfl
    have hsome : p.noteParts.isEmpty = false := by simpa using hparts
    rw [hsome, if_neg (by simp), Option.map_some, hnode, Option.mem_some_iff, eq_comm]
    exact (and_iff_right hparts).symm

namespace Addition

/-- What is chosen for a unit: what generated targets get where it is set, and otherwise what all
units get. -/
def chosen (a : Addition) (generated regular : Option String) : Option String :=
  if a.provenance.isSome then generated.or regular else regular

def chosenState (settings : WriterSettings) (a : Addition) : Option String :=
  a.chosen settings.generatedState.state settings.state.state

def chosenQualifier (settings : WriterSettings) (a : Addition) : Option String :=
  a.chosen settings.generatedState.qualifier settings.state.qualifier

/-- The unit that an addition is meant to be, in a catalog with or without translations. -/
structure Shows (settings : WriterSettings) (writesTarget : Bool) (a : Addition)
    (v : TransUnit) : Prop where
  source : v.source = some (if writesTarget then a.source else a.target)
  target : v.target = if writesTarget then some a.target else none
  state : v.state = if writesTarget then a.chosenState settings else none
  targetAttributes : v.targetAttributes =
    if writesTarget then (a.chosenQualifier settings).toList.map fun q => ("state-qualifier", q)
    else []
  sourceAttributes : v.sourceAttributes =
    if writesTarget then []
    else ((a.chosenState settings).toList.map fun s => ("state", s)) ++
      (a.chosenQualifier settings).toList.map fun q => ("state-qualifier", q)
  note : ∀ n, v.children.getLast? = some (.foreign n) ↔
    settings.generatedNotes = true ∧ ∃ p, a.provenance = some p ∧ p.Known ∧ n = p.noteNode

theorem state_eq (settings : WriterSettings) (a : Addition) :
    a.state settings = ⟨a.chosenState settings, a.chosenQualifier settings⟩ := by
  unfold state isGenerated chosenState chosenQualifier chosen
  split <;> rfl

theorem getLast?_noted {cs : List UnitChild} {n : Node} (hcs : cs.getLast? ≠ some (.foreign n))
    (note : Option Note) :
    (cs ++ note.toList.map fun m => UnitChild.foreign m.node).getLast? = some (.foreign n) ↔
      n ∈ note.map Note.node := by
  cases note with
  | none => simpa using hcs
  | some m =>
    rw [Option.toList_some, List.map_singleton, List.getLast?_concat, Option.map_some,
      Option.mem_some_iff, Option.some.injEq, UnitChild.foreign.injEq]

theorem getLast?_children (settings : WriterSettings) (writesTarget : Bool) (a : Addition)
    (n : Node) : (a.readBack settings writesTarget).children.getLast? = some (.foreign n) ↔
      settings.generatedNotes = true ∧ ∃ p, a.provenance = some p ∧ p.Known ∧ n = p.noteNode := by
  have htexts : (if writesTarget then [.source, .target] else [.source]).getLast? ≠
      some (UnitChild.foreign n) := by
    cases writesTarget <;> simp
  have hnotes : a.notes settings =
      (if settings.generatedNotes then a.provenance.bind Provenance.note? else none).toList := by
    unfold notes
    split <;> rfl
  have hlast := getLast?_noted htexts
    (if settings.generatedNotes then a.provenance.bind Provenance.note? else none)
  rw [← hnotes] at hlast
  refine hlast.trans ?_
  cases settings.generatedNotes with
  | false => simp
  | true =>
    cases a.provenance with
    | none => simp
    | some p =>
      have hnode := Provenance.node_note? (p := p) (n := n)
      simpa using hnode

theorem shows_readBack {a : Addition} (htarget : a.target ≠ "") (settings : WriterSettings)
    (writesTarget : Bool) :
    a.Shows settings writesTarget (a.readBack settings writesTarget) := by
  have hempty : a.target.isEmpty = false := by simpa using htarget
  refine ⟨?_, ?_, ?_, ?_, ?_, a.getLast?_children settings writesTarget⟩ <;>
    cases writesTarget <;>
    simp [readBack, unit, translatedUnit, sourceUnit, state_eq, hempty, qualifierAttributes]

end Addition

/-- An addition that is made to a catalog is read back as it is meant, unless the catalog is sorted
and a node that repeats an identifier takes the place of the unit or cannot be read before the
others. -/
theorem addition_reads_back {t : FileTree} {path : String} {d : Document}
    (hload : Document.load t path = .ok d)
    (hnamed : ∀ text, t.read path = .ok text → Document.NamesIn text)
    (package locale : String) (settings : WriterSettings) {a : Addition} (htarget : a.target ≠ "")
    (hnew : d.find? a.key.id = none) (hfree : d.LeavesFree settings.layout a.key.id) :
    let header := Header.resolve d.metadata package locale
    let unit := a.unit settings (header.writesTarget locale)
    (d.insert a.key.id unit).2 = true → ∃ d' v,
      Document.parse path (render settings.layout (d.insert a.key.id unit).1 header) = .ok d' ∧
        d'.unitAt? a.key.id = some v ∧ a.Shows settings (header.writesTarget locale) v := by
  intro header unit hinserted
  obtain ⟨hsound, hread⟩ := Document.sound_of_load hload hnamed
  obtain ⟨d', hparse, hunit⟩ :=
    Document.exists_parse_insert hsound hread htarget hnew hinserted hfree path header
  exact ⟨d', _, hparse, hunit, Addition.shows_readBack htarget settings _⟩

/-- A form with a generated target in a sorted catalog that repeats another identifier. -/
theorem addition_reads_back_form :
    let settings : WriterSettings :=
      { layout := ⟨2, true⟩, state := ⟨"new", "exact-match"⟩, generatedState := ⟨none, "mt"⟩
        generatedNotes := true }
    let a : Addition :=
      { locale := "de", key := ⟨"app", "Main", "a"⟩, fallback := "cards", source := "cards"
        target := "<Karten>", placeholders := .empty, provenance := some { model := "m" } }
    let t : FileTree := ⟨⟨[(["a.xlf"], .text ("<x><file><body><trans-unit id='b'/>" ++
      "<group id='a' restype='x-gettext-plurals'><trans-unit id='a[1]'/></group>" ++
      "<trans-unit id='b'><source>B</source></trans-unit></body></file></x>"))]⟩⟩
    ∃ d d' v, Document.load t "/a.xlf" = .ok d ∧
      Document.parse "/a.xlf" (render settings.layout (d.insert "a" (a.unit settings true)).1
        (.resolve d.metadata "app" "de")) = .ok d' ∧
      d'.unitAt? "a" = some v ∧ a.Shows settings true v := by
  intro settings a t
  have hreadable : (t.read "/a.xlf").toOption.any Document.isReadable = true := by decide +kernel
  obtain ⟨d, hd⟩ := exists_holds hreadable
  have hload := hd.load
  have hnamed : ∀ text, t.read "/a.xlf" = .ok text → Document.NamesIn text := by
    obtain ⟨text, hread, -, hnames⟩ := hd
    intro other hother
    rw [hread] at hother
    cases hother
    exact hnames
  have hchecks : (Document.load t "/a.xlf").toOption.map (fun d =>
      ((d.find? "a").isNone, (Header.resolve d.metadata "app" "de").writesTarget "de",
        (d.insert "a" (a.unit settings true)).2,
        (readParts bodyVerdict [] (d.foreignNodes.map (Node.reread 2 3))).map Part.keys)) =
      some (true, true, true, some ["b"]) := by decide +kernel
  rw [hload] at hchecks
  obtain ⟨hnew, hchecks⟩ := Prod.mk.inj (Option.some.inj hchecks)
  obtain ⟨hwrites, hchecks⟩ := Prod.mk.inj hchecks
  obtain ⟨hinserted, hkeys⟩ := Prod.mk.inj hchecks
  obtain ⟨ps, hps, hkeys⟩ := Option.map_eq_some_iff.1 hkeys
  have hfree : d.LeavesFree settings.layout "a" := by
    refine fun _ => ⟨ps, hps, ?_, fun base n hsplit => ?_⟩
    · rw [hkeys]
      decide
    · have hplain : splitPluralForm "a" = none := by decide
      rw [hplain] at hsplit
      cases hsplit
  have hback := addition_reads_back hload hnamed "app" "de" settings (a := a) (by decide)
    (Option.isNone_iff_eq_none.1 hnew) hfree
  simp only [hwrites] at hback
  obtain ⟨d', v, hparse, hunit, hshows⟩ := hback hinserted
  exact ⟨d, d', v, hload, hparse, hunit, hshows⟩

end TranslationAudit.Catalog
