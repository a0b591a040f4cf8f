import TranslationAudit.Proofs.Catalog.Unit

/-! # Plural groups read back

* `formVerdict`, `readGroup_eq`: a group is read as parts of which the keys are form indexes.
* `PluralGroup.AsRead`: groups whose forms are those of their children, as in those that were read.
* `PluralGroup.reread`: the group that stands for a group after writing and reading.
* `PluralGroup.readGroup_element`, `PluralGroup.again_eq_reread`, `PluralGroup.block_reread`: it is
  what the block of the group is read as, and it has the same block again.
-/

namespace TranslationAudit.Catalog

open Markup (AttributesNamed Block Element Node)

/-! ## Groups as parts -/

/-- What an element of a group is taken for. -/
def formVerdict (groupId : String) (seen : List Nat) (e : Element) : Verdict Nat TransUnit :=
  if e.name = "group" then .unsupported
  else if e.name = "trans-unit" then
    match formIndex? groupId e with
    | none => .unsupported
    | some i => if seen.contains i then .unsupported else .keyed i (readUnit e)
  else .foreign

/-- A part of a group as one of its children. -/
def GroupChild.ofPart : Part Nat TransUnit → GroupChild
  | .keyed i _ => .form i
  | .foreign n => .foreign n

/-- Adds parts to a group. -/
def PluralGroup.addParts (g : PluralGroup) (ps : List (Part Nat TransUnit)) : PluralGroup :=
  { g with
    forms := (Part.entries ps).foldl (fun m e => m.insert e.1 e.2) g.forms
    children := g.children ++ ps.map GroupChild.ofPart }

theorem contains_insert_form (m : SortedMap Nat TransUnit) (i j : Nat) (u : TransUnit) :
    (m.insert i u).contains j = (decide (j = i) || m.contains j) := by
  rw [SortedMap.contains, SortedMap.get?_insert, SortedMap.contains]
  by_cases hj : j = i <;> simp [hj]

theorem readGroupChildren_eq (id : String) (g : PluralGroup) (seen : List Nat) (ns : List Node)
    (hseen : ∀ i, g.forms.contains i = seen.contains i) :
    readGroupChildren id g ns = (readParts (formVerdict id) seen ns).map g.addParts := by
  induction ns generalizing g seen with
  | nil => simp [readGroupChildren, readParts, PluralGroup.addParts]
  | cons n ns ih =>
    -- a node the group passes over is kept, and reading goes on with the same forms seen
    have behind (m : Node) :
        readGroupChildren id { g with children := g.children ++ [.foreign m] } ns =
          ((readParts (formVerdict id) seen ns).map (.foreign m :: ·)).map g.addParts := by
      rw [ih { g with children := g.children ++ [.foreign m] } seen hseen, Option.map_map]
      congr 1
      funext ps
      simp [PluralGroup.addParts, GroupChild.ofPart]
    cases n with
    | text s => exact ih g seen hseen
    | comment s => exact behind (.comment s)
    | element name attributes children =>
      rw [readGroupChildren, readParts, formVerdict]
      by_cases hgroup : name = "group"
      · simp only [hgroup, if_true]
        rfl
      · by_cases hunit : name = "trans-unit"
        · subst hunit
          simp only [String.reduceEq, if_false, if_true]
          cases formIndex? id ⟨"trans-unit", attributes, children⟩ with
          | none => rfl
          | some i =>
            simp only [hseen i]
            cases hi : seen.contains i with
            | true => rfl
            | false =>
              simp only [Bool.false_eq_true, if_false]
              rw [ih _ (seen ++ [i]), Option.map_map]
              · congr 1
                funext ps
                simp [PluralGroup.addParts, GroupChild.ofPart]
              · intro j
                rw [contains_insert_form, hseen j]
                simp [Bool.or_comm]
        · simp only [hgroup, hunit, if_false]
          exact behind _

theorem readGroup_eq (id : String) (e : Element) :
    readGroup id e = (readParts (formVerdict id) [] e.children).map
      (PluralGroup.addParts { attributes := e.attributesExcept PluralGroup.ownNames }) :=
  readGroupChildren_eq id _ [] e.children fun _ => rfl

/-! ## Forms that were added -/

section Forms

variable {es : List (Nat × TransUnit)}

/-- The forms of entries with indexes of their own. -/
def formsOf (es : List (Nat × TransUnit)) : SortedMap Nat TransUnit :=
  es.foldl (fun m e => m.insert e.1 e.2) .empty

theorem ascending_formsOf (es : List (Nat × TransUnit)) : (formsOf es).Ascending := by
  have hfold (es : List (Nat × TransUnit)) (m : SortedMap Nat TransUnit) (hm : m.Ascending) :
      (es.foldl (fun m e => m.insert e.1 e.2) m).Ascending := by
    induction es generalizing m with
    | nil => exact hm
    | cons e es ih => exact ih _ (hm.insert e.1 e.2)
  exact hfold es _ SortedMap.ascending_empty

theorem mem_formsOf (hnodup : (es.map Prod.fst).Nodup) {i : Nat} {u : TransUnit} :
    (i, u) ∈ (formsOf es).entries ↔ (i, u) ∈ es := by
  have hfold (es : List (Nat × TransUnit)) (hes : (es.map Prod.fst).Nodup)
      (m : SortedMap Nat TransUnit) (hm : m.Ascending)
      (hnew : ∀ e ∈ es, ∀ f ∈ m.entries, e.1 ≠ f.1) :
      (i, u) ∈ (es.foldl (fun m e => m.insert e.1 e.2) m).entries ↔
        (i, u) ∈ m.entries ∨ (i, u) ∈ es := by
    induction es generalizing m with
    | nil => simp
    | cons e es ih =>
      rw [List.map_cons, List.nodup_cons] at hes
      have hother : ∀ a ∈ es, a.1 ≠ e.1 := by
        intro a ha heq
        exact hes.1 (heq ▸ List.mem_map_of_mem ha)
      rw [List.foldl_cons, ih hes.2 _ (hm.insert e.1 e.2) ?_, SortedMap.mem_entries_insert hm,
        List.mem_cons]
      · obtain ⟨j, v⟩ := e
        by_cases hi : i = j
        · subst hi
          have hfresh : (i, u) ∉ m.entries := by
            intro h
            exact hnew (i, v) List.mem_cons_self (i, u) h rfl
          simp [hfresh]
        · simp [hi]
      · intro a ha f hf
        obtain ⟨j, v⟩ := f
        rw [SortedMap.mem_entries_insert hm] at hf
        split at hf
        · next hj => exact hj ▸ hother a ha
        · exact hnew a (List.mem_cons_of_mem e ha) (j, v) hf
  have hall := hfold es hnodup .empty SortedMap.ascending_empty (by simp [SortedMap.empty])
  rw [formsOf, hall]
  simp [SortedMap.empty]

end Forms

/-! ## What reading makes sure of -/

/-- The group that was read as given parts. -/
def PluralGroup.ofParts (attributes : List (String × String)) (ps : List (Part Nat TransUnit)) :
    PluralGroup where
  attributes
  forms := formsOf (Part.entries ps)
  children := ps.map GroupChild.ofPart

theorem readGroup_eq_some {id : String} {e : Element} {g : PluralGroup} :
    readGroup id e = some g ↔ ∃ ps, readParts (formVerdict id) [] e.children = some ps ∧
      g = .ofParts (e.attributesExcept PluralGroup.ownNames) ps := by
  rw [readGroup_eq, Option.map_eq_some_iff]
  constructor
  · rintro ⟨ps, hps, rfl⟩
    exact ⟨ps, hps, rfl⟩
  · rintro ⟨ps, hps, rfl⟩
    exact ⟨ps, hps, rfl⟩

theorem formVerdict_keyed {id : String} {seen : List Nat} {e : Element} {i : Nat} {u : TransUnit}
    (h : formVerdict id seen e = .keyed i u) :
    i ∉ seen ∧ u = readUnit e ∧ e.name = "trans-unit" ∧ formIndex? id e = some i := by
  rw [formVerdict] at h
  split at h
  · cases h
  · split at h
    · next hname =>
      split at h
      · cases h
      · next j hj =>
        split at h
        · cases h
        · next hseen =>
          cases h
          exact ⟨by simpa using hseen, rfl, hname, hj⟩
    · cases h

theorem formIndex?_eq_some {id : String} {e : Element} {i : Nat} (h : formIndex? id e = some i) :
    id ≠ "" ∧ i < formLimit := by
  rw [formIndex?] at h
  split at h
  · next base n hsplit =>
    split at h
    · next hbase =>
      cases h
      obtain ⟨name, -, hname⟩ := Option.bind_eq_some_iff.1 hsplit
      obtain ⟨hne, hlimit⟩ := splitPluralForm_eq_some hname
      exact ⟨hbase ▸ hne, hlimit⟩
    · cases h
  · cases h

theorem formVerdict_foreign {id : String} {seen : List Nat} {e : Element} :
    formVerdict id seen e = .foreign ↔ e.name ≠ "group" ∧ e.name ≠ "trans-unit" := by
  rw [formVerdict]
  constructor
  · intro h
    split at h
    · cases h
    · next hgroup =>
      split at h
      · split at h
        · cases h
        · split at h <;> cases h
      · next hunit => exact ⟨hgroup, hunit⟩
  · rintro ⟨hgroup, hunit⟩
    rw [if_neg hgroup, if_neg hunit]

theorem byHead_formVerdict (id : String) : ByHead (formVerdict id) := by
  intro seen e e' hname _ h
  rw [formVerdict_foreign] at h ⊢
  rw [hname]
  exact h

namespace PluralGroup

/-- Groups whose forms are those of their children, one for each index. -/
def AsRead (g : PluralGroup) : Prop :=
  ∃ ps, (Part.keys ps).Nodup ∧ g = .ofParts g.attributes ps ∧
    ∀ i u, .keyed i u ∈ ps → u.AsRead

theorem foreign_mem_ofParts {attributes : List (String × String)}
    {ps : List (Part Nat TransUnit)} {n : Node}
    (h : .foreign n ∈ (ofParts attributes ps).children) : .foreign n ∈ ps := by
  obtain ⟨p, hp, hn⟩ := List.mem_map.1 h
  cases p with
  | keyed i u => cases hn
  | foreign m =>
    cases hn
    exact hp

end PluralGroup

/-- A group that was read can be written, and its forms are those of its children. -/
theorem asRead_readGroup {id : String} {e : Element} {g : PluralGroup}
    (h : readGroup id e = some g) (htidy : e.toNode.Tidy) (hnamed : e.toNode.Named) :
    g.Sound id ∧ g.AsRead := by
  obtain ⟨ps, hread, rfl⟩ := readGroup_eq_some.1 h
  have hstable := stable_of_readParts (fun _ _ _ _ hv => (formVerdict_keyed hv).1) hread
  have hnodup := hstable.nodup.1
  have hkeyed : ∀ i u, .keyed i u ∈ ps →
      u.Sound ∧ u.AsRead ∧ id ≠ "" ∧ i < formLimit := by
    intro i u hp
    rcases mem_of_readParts hread hp with ⟨n, -, hn, -⟩ | ⟨f, j, v, seen, hf, hverdict, heq⟩
    · cases hn
    · cases heq
      obtain ⟨-, rfl, -, hindex⟩ := formVerdict_keyed hverdict
      exact ⟨sound_readUnit (Markup.tidy_of_mem_children htidy _ hf)
        (Markup.named_of_mem_children hnamed _ hf), asRead_readUnit f, formIndex?_eq_some hindex⟩
  have hforeign : ∀ n, .foreign n ∈ ps → n.Solid ∧ n ∈ e.children := by
    intro n hp
    rcases mem_of_readParts hread hp with ⟨m, hm, heq, htext⟩ | ⟨f, j, v, seen, -, -, heq⟩
    · cases heq
      exact ⟨⟨htext, Markup.tidy_of_mem_children htidy n hm,
        Markup.named_of_mem_children hnamed n hm⟩, hm⟩
    · cases heq
  have hentry {i : Nat} {u : TransUnit} (hu : (i, u) ∈ (formsOf (Part.entries ps)).entries) :
      .keyed i u ∈ ps := Part.mem_entries.1 ((mem_formsOf hnodup).1 hu)
  refine ⟨⟨rfl, .of_except (Markup.attributesNamed_of_tidy htidy hnamed), ?_, ?_,
    ascending_formsOf _, ?_, ?_⟩, ps, hnodup, rfl, fun i u hp => (hkeyed i u hp).2.1⟩
  · exact fun i u hu => (hkeyed i u (hentry hu)).1
  · exact fun i u hu => (hkeyed i u (hentry hu)).2.2
  · exact fun n hn => (hforeign n (PluralGroup.foreign_mem_ofParts hn)).1
  · intro n hn f hf
    have hp := PluralGroup.foreign_mem_ofParts hn
    obtain ⟨seen, -, hverdict⟩ := hstable.foreign hp
    exact formVerdict_foreign.1 (hverdict f hf)

/-! ## Writing and reading -/

namespace PluralGroup

variable {id : String} {g : PluralGroup}

theorem part_ofPart (p : Part Nat TransUnit) : (GroupChild.ofPart p).part = p.erase := by
  cases p <;> rfl

theorem parts_ofParts (attributes : List (String × String)) (ps : List (Part Nat TransUnit)) :
    (ofParts attributes ps).children.map GroupChild.part = ps.map Part.erase := by
  rw [ofParts, List.map_map]
  exact List.map_congr_left fun p _ => part_ofPart p

/-- A group that was read is written in the order of its parts, unless forms are sorted. -/
theorem written_ofParts {ps : List (Part Nat TransUnit)} (h : (Part.keys ps).Nodup)
    (attributes : List (String × String)) : (ofParts attributes ps).written false = ps := by
  rw [written, parts_ofParts]
  refine Part.written_erase rfl h ?_ ?_
  · intro i u hp
    exact (SortedMap.get?_eq_some_iff (ascending_formsOf _)).2
      ((mem_formsOf h).2 (Part.mem_entries.2 hp))
  · intro e he
    exact List.mem_map_of_mem ((mem_formsOf h).1 he)

/-- Sorted forms stand behind the foreign nodes. -/
theorem written_sorted (g : PluralGroup) :
    g.written true =
      (Part.nodes (g.children.map GroupChild.part)).map .foreign ++
        g.forms.entries.map fun e => .keyed e.1 e.2 :=
  Part.written_skip _ _ _

theorem nodup_keys_forms (h : g.forms.Ascending) : (g.forms.entries.map Prod.fst).Nodup := by
  rw [List.Nodup, List.pairwise_map]
  exact List.Pairwise.imp (fun hab => SortedMap.ne_of_lt hab) h

theorem nodup_keys_written (h : g.forms.Ascending) (orderById : Bool) :
    (Part.keys (g.written orderById)).Nodup :=
  Part.nodup_keys_written (fun es => List.Perm.refl es) (nodup_keys_forms h)

/-- What is written of a group is taken for the same wherever it stands. -/
theorem Sound.stable (h : g.Sound id) (orderById : Bool) :
    Stable (formVerdict id) [] (g.written orderById) := by
  refine stable_of_nodup (nodup_keys_written h.ascending orderById) (by simp) ?_
  intro n hn seen e he
  rcases mem_written h.ascending hn with ⟨m, heq, hm⟩ | ⟨i, u, heq, -⟩
  · cases heq
    exact formVerdict_foreign.2 (h.foreign n hm e he)
  · cases heq

/-- The parts that stand for those of a group after writing and reading. -/
def rereadParts (tab : Nat) (orderById : Bool) (g : PluralGroup) : List (Part Nat TransUnit) :=
  (g.written orderById).map (Part.map (fun _ u => u.reread tab 4) (Node.reread tab 4))

/-- The group that stands for a group after writing and reading. -/
def reread (tab : Nat) (orderById : Bool) (g : PluralGroup) : PluralGroup :=
  ofParts g.attributes (g.rereadParts tab orderById)

theorem AsRead.form (h : g.AsRead) {i : Nat} {u : TransUnit} (hu : (i, u) ∈ g.forms.entries) :
    u.AsRead := by
  obtain ⟨ps, hnodup, hg, hps⟩ := h
  rw [hg] at hu
  exact hps i u (Part.mem_entries.1 ((mem_formsOf hnodup).1 hu))

/-- The element that the block of a form is read as. -/
def formElement (tab : Nat) (id : String) (i : Nat) (u : TransUnit) : Element :=
  ⟨"trans-unit", u.allAttributes (pluralFormId id i), Block.contents tab 4 u.innerBlocks⟩

/-- What the block of a group is read as. -/
def again (tab : Nat) (orderById : Bool) (id : String) (g : PluralGroup) : PluralGroup :=
  ofParts g.attributes ((g.written orderById).map
    (Part.map (fun i u => readUnit (formElement tab id i u)) (Node.reread tab 4)))

theorem formVerdict_formElement (h : g.Sound id) {i : Nat} {u : TransUnit}
    (hu : (i, u) ∈ g.forms.entries) {seen : List Nat} (hi : i ∉ seen) (tab : Nat) :
    formVerdict id seen (formElement tab id i u) = .keyed i (readUnit (formElement tab id i u)) := by
  obtain ⟨hid, hlimit⟩ := h.indexes i u hu
  have hsound := h.forms i u hu
  have hattribute : (formElement tab id i u).attribute? "id" = some (pluralFormId id i) :=
    hsound.attributes.lookup_merge (TransUnit.mem_own _) (by simp [TransUnit.ownNames])
  have hindex : formIndex? id (formElement tab id i u) = some i := by
    rw [formIndex?, hattribute, Option.bind_some, splitPluralForm_pluralFormId hid hlimit]
    simp
  have hseen : seen.contains i = false := by simpa using hi
  have hname : (formElement tab id i u).name = "trans-unit" := rfl
  rw [formVerdict, hname, if_neg (by simp), if_pos rfl, hindex]
  simp only [hseen, Bool.false_eq_true, if_false]

theorem readGroup_element (h : g.Sound id) (tab : Nat) (orderById : Bool) :
    readGroup id ⟨"group", g.allAttributes id, Block.contents tab 3
        ((g.written orderById).flatMap (Part.blocks (formBlock id)))⟩ =
      some (g.again tab orderById id) := by
  have hattributes : Element.attributesExcept ⟨"group", g.allAttributes id, Block.contents tab 3
      ((g.written orderById).flatMap (Part.blocks (formBlock id)))⟩ ownNames = g.attributes :=
    h.attributes.except_merge (mem_own _ _) "group" _
  rw [readGroup_eq_some, hattributes]
  refine ⟨_, ?_, rfl⟩
  rw [← readParts_notTexts, Block.notTexts_contents, readParts_notTexts]
  refine readParts_blocks (byHead_formVerdict id) ?_ ?_ (h.stable orderById)
  · intro i u seen hp hi
    rcases mem_written h.ascending hp with ⟨n, heq, -⟩ | ⟨j, v, heq, hv⟩
    · cases heq
    · cases heq
      exact ⟨_, Block.node_nested .., formVerdict_formElement h hv hi tab⟩
  · intro n hp
    rcases mem_written h.ascending hp with ⟨m, heq, hm⟩ | ⟨j, v, heq, -⟩
    · cases heq
      exact ⟨(h.solid n hm).notText, (h.solid n hm).tidy⟩
    · cases heq

/-- A group that was read is read as what stands for it. -/
theorem again_eq_reread (h : g.Sound id) (hread : g.AsRead) (tab : Nat) (orderById : Bool) :
    g.again tab orderById id = g.reread tab orderById := by
  rw [again, reread, rereadParts]
  congr 1
  apply List.map_congr_left
  intro p hp
  rcases mem_written h.ascending hp with ⟨n, rfl, -⟩ | ⟨i, u, rfl, hu⟩
  · rfl
  · have hunit := TransUnit.readUnit_block (h.forms i u hu) (hread.form hu) (pluralFormId id i) tab 4
    rw [Part.map, Part.map, formElement, hunit]

theorem keys_rereadParts (tab : Nat) (orderById : Bool) (g : PluralGroup) :
    Part.keys (g.rereadParts tab orderById) = Part.keys (g.written orderById) :=
  Part.keys_map _ _ _

theorem mem_written_iff (h : g.forms.Ascending) {orderById : Bool} {i : Nat} {u : TransUnit} :
    .keyed i u ∈ g.written orderById ↔ (i, u) ∈ g.forms.entries := by
  constructor
  · intro hp
    rcases mem_written h hp with ⟨n, heq, -⟩ | ⟨j, v, heq, hv⟩
    · cases heq
    · cases heq
      exact hv
  · intro hu
    exact Part.keyed_mem_written (fun es => List.Perm.refl es)
      ((SortedMap.get?_eq_some_iff h).2 hu) hu

/-- The forms of what stands for a group are those that stand for its forms. -/
theorem forms_reread (h : g.forms.Ascending) (tab : Nat) (orderById : Bool) :
    (g.reread tab orderById).forms =
      ⟨g.forms.entries.map fun e => (e.1, e.2.reread tab 4)⟩ := by
  have hnodup : ((Part.entries (g.rereadParts tab orderById)).map Prod.fst).Nodup := by
    rw [← Part.keys, keys_rereadParts]
    exact nodup_keys_written h orderById
  have hascending : (g.forms.entries.map fun e => (e.1, e.2.reread tab 4)).Pairwise
      fun a b => compare a.1 b.1 = .lt := by
    rw [List.pairwise_map]
    exact h
  refine SortedMap.eq_of_mem_iff (ascending_formsOf _) hascending ?_
  rintro ⟨i, v⟩
  rw [reread, ofParts, mem_formsOf hnodup, rereadParts, Part.entries_map, List.mem_map,
    List.mem_map]
  constructor
  · rintro ⟨⟨j, u⟩, hu, heq⟩
    exact ⟨(j, u), (mem_written_iff h).1 (Part.mem_entries.1 hu), heq⟩
  · rintro ⟨⟨j, u⟩, hu, heq⟩
    exact ⟨(j, u), Part.mem_entries.2 ((mem_written_iff h).2 hu), heq⟩

theorem written_reread (h : g.Sound id) (tab : Nat) (orderById : Bool) :
    (g.reread tab orderById).written orderById = g.rereadParts tab orderById := by
  cases orderById with
  | false =>
    apply written_ofParts
    rw [keys_rereadParts]
    exact nodup_keys_written h.ascending false
  | true =>
    have hnodes : Part.nodes (g.rereadParts tab true) =
        (Part.nodes (g.children.map GroupChild.part)).map (Node.reread tab 4) := by
      rw [rereadParts, Part.nodes_map, written_sorted, Part.nodes_append, Part.nodes_map_foreign,
        Part.nodes_map_keyed, List.append_nil]
    rw [written_sorted, forms_reread h.ascending, reread, parts_ofParts, Part.nodes_erase, hnodes]
    simp [rereadParts, written_sorted, Part.map, Function.comp_def]

theorem block_reread (h : g.Sound id) (hread : g.AsRead) (tab : Nat) (orderById : Bool) :
    (g.reread tab orderById).block orderById id = g.block orderById id := by
  have hpart : ∀ p ∈ g.written orderById,
      (Part.map (fun _ u => u.reread tab 4) (Node.reread tab 4) p).blocks (formBlock id) =
        p.blocks (formBlock id) := by
    intro p hp
    rcases mem_written h.ascending hp with ⟨n, rfl, hn⟩ | ⟨i, u, rfl, hu⟩
    · have hsolid := h.solid n hn
      exact hsolid.tidy.blocks_reread hsolid.named tab 4
    · have hblock := TransUnit.block_reread (h.forms i u hu) (hread.form hu) tab 4
        (pluralFormId id i)
      rw [Part.map, Part.blocks, formBlock, hblock]
      rfl
  have hattributes : (g.reread tab orderById).allAttributes id = g.allAttributes id := by
    rw [allAttributes, allAttributes, h.restype]
    rfl
  rw [block, block, written_reread h, rereadParts, List.flatMap_map, hattributes,
    List.flatMap_congr hpart]

end PluralGroup

end TranslationAudit.Catalog
