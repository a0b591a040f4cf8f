import TranslationAudit.Proofs.Markup.Sound

/-! # Bodies and groups as lists of parts

The body of a catalog and a plural group are both lists of parts in the order of the file. Some
parts have a key and a value, the others are nodes that only keep their place.

* `Part`, `Part.recorded`: parts, and those of a list of keys and nodes that are written.
* `Verdict`, `readParts`: the reading of nodes as parts, after what one element is taken for.
* `Stable`: parts that are taken for the same where they stand.
* `readParts_blocks`: stable parts are read back from their blocks.
-/

namespace TranslationAudit.Catalog

open Markup (Block Element Node)

/-- A part with a key, or a node that only keeps its place. -/
inductive Part (κ ν : Type) where
  | keyed (key : κ) (value : ν)
  | foreign (node : Node)
deriving Inhabited

namespace Part

variable {κ ν μ : Type}

def entry? : Part κ ν → Option (κ × ν)
  | keyed k v => some (k, v)
  | foreign _ => none

def node? : Part κ ν → Option Node
  | keyed _ _ => none
  | foreign n => some n

/-- A part without its value. -/
def erase : Part κ ν → Part κ Unit
  | keyed k _ => keyed k ()
  | foreign n => foreign n

def map (value : κ → ν → μ) (node : Node → Node) : Part κ ν → Part κ μ
  | keyed k v => keyed k (value k v)
  | foreign n => foreign (node n)

def blocks (block : κ → ν → Block) : Part κ ν → List Block
  | keyed k v => [block k v]
  | foreign n => n.blocks

def entries (ps : List (Part κ ν)) : List (κ × ν) := ps.filterMap entry?

def keys (ps : List (Part κ ν)) : List κ := (entries ps).map Prod.fst

def nodes (ps : List (Part κ ν)) : List Node := ps.filterMap node?

@[simp] theorem entries_nil : entries ([] : List (Part κ ν)) = [] := rfl

@[simp] theorem entries_keyed (k : κ) (v : ν) (ps : List (Part κ ν)) :
    entries (keyed k v :: ps) = (k, v) :: entries ps := rfl

@[simp] theorem entries_foreign (n : Node) (ps : List (Part κ ν)) :
    entries (foreign n :: ps) = entries ps := rfl

@[simp] theorem entries_append (ps qs : List (Part κ ν)) :
    entries (ps ++ qs) = entries ps ++ entries qs := List.filterMap_append

@[simp] theorem keys_nil : keys ([] : List (Part κ ν)) = [] := rfl

@[simp] theorem keys_keyed (k : κ) (v : ν) (ps : List (Part κ ν)) :
    keys (keyed k v :: ps) = k :: keys ps := rfl

@[simp] theorem keys_foreign (n : Node) (ps : List (Part κ ν)) :
    keys (foreign n :: ps) = keys ps := rfl

@[simp] theorem keys_append (ps qs : List (Part κ ν)) :
    keys (ps ++ qs) = keys ps ++ keys qs := by
  rw [keys, entries_append, List.map_append, keys, keys]

theorem mem_entries {ps : List (Part κ ν)} {k : κ} {v : ν} :
    (k, v) ∈ entries ps ↔ keyed k v ∈ ps := by
  induction ps with
  | nil => simp
  | cons p ps ih => cases p <;> simp [ih]

@[simp] theorem nodes_nil : nodes ([] : List (Part κ ν)) = [] := rfl

@[simp] theorem nodes_keyed (k : κ) (v : ν) (ps : List (Part κ ν)) :
    nodes (keyed k v :: ps) = nodes ps := rfl

@[simp] theorem nodes_foreign (n : Node) (ps : List (Part κ ν)) :
    nodes (foreign n :: ps) = n :: nodes ps := rfl

theorem mem_nodes {ps : List (Part κ ν)} {n : Node} : n ∈ nodes ps ↔ foreign n ∈ ps := by
  induction ps with
  | nil => simp
  | cons p ps ih => cases p <;> simp [ih]

@[simp] theorem nodes_append (ps qs : List (Part κ ν)) :
    nodes (ps ++ qs) = nodes ps ++ nodes qs := List.filterMap_append

@[simp] theorem nodes_map_foreign (ns : List Node) :
    nodes (ns.map foreign : List (Part κ ν)) = ns := by
  induction ns with
  | nil => rfl
  | cons n ns ih => rw [List.map_cons, nodes_foreign, ih]

@[simp] theorem nodes_map_keyed (es : List (κ × ν)) :
    nodes (es.map fun e => keyed e.1 e.2) = [] := by
  induction es with
  | nil => rfl
  | cons e es ih => rw [List.map_cons, nodes_keyed, ih]

@[simp] theorem entries_map_foreign (ns : List Node) :
    entries (ns.map foreign : List (Part κ ν)) = [] := by
  induction ns with
  | nil => rfl
  | cons n ns ih => rw [List.map_cons, entries_foreign, ih]

@[simp] theorem entries_map_keyed (es : List (κ × ν)) :
    entries (es.map fun e => keyed e.1 e.2) = es := by
  induction es with
  | nil => rfl
  | cons e es ih => rw [List.map_cons, entries_keyed, ih]

@[simp] theorem keys_map_keyed (es : List (κ × ν)) :
    keys (es.map fun e => keyed e.1 e.2) = es.map Prod.fst := by
  rw [keys, entries_map_keyed]

theorem mem_keys {ps : List (Part κ ν)} {k : κ} : k ∈ keys ps ↔ ∃ v, keyed k v ∈ ps := by
  simp [keys, mem_entries]

section Map

variable (value : κ → ν → μ) (node : Node → Node) (ps : List (Part κ ν))

@[simp] theorem entries_map :
    entries (ps.map (map value node)) = (entries ps).map fun e => (e.1, value e.1 e.2) := by
  induction ps with
  | nil => rfl
  | cons p ps ih => cases p <;> simp [map, ih]

@[simp] theorem keys_map : keys (ps.map (map value node)) = keys ps := by
  rw [keys, entries_map, List.map_map]
  rfl

@[simp] theorem nodes_map : nodes (ps.map (map value node)) = (nodes ps).map node := by
  induction ps with
  | nil => rfl
  | cons p ps ih => cases p <;> simp [map, ih]

@[simp] theorem nodes_erase : nodes (ps.map erase) = nodes ps := by
  induction ps with
  | nil => rfl
  | cons p ps ih => cases p <;> simp [erase, ih]

end Map

/-! ## What is written -/

section Recorded

variable [DecidableEq κ] (skip : Bool) (find : κ → Option ν)

/-- The parts of a list that are written, each key with its value, and the keys among them. Keys in
`seen` and keys without a value are left out, and all keys if `skip` is set. -/
def recorded : List κ → List (Part κ Unit) → List (Part κ ν) × List κ
  | seen, [] => ([], seen)
  | seen, foreign n :: rest =>
    let (ps, seen) := recorded seen rest
    (foreign n :: ps, seen)
  | seen, keyed k _ :: rest =>
    match if skip || seen.contains k then none else find k with
    | none => recorded seen rest
    | some v =>
      let (ps, seen) := recorded (k :: seen) rest
      (keyed k v :: ps, seen)

variable {find}

theorem foreign_mem_recorded {skip : Bool} {seen : List κ} {cs : List (Part κ Unit)} {n : Node} :
    foreign n ∈ (recorded skip find seen cs).1 ↔ foreign n ∈ cs := by
  induction cs generalizing seen with
  | nil => simp [recorded]
  | cons c cs ih =>
    cases c with
    | foreign m => simp [recorded, ih]
    | keyed k u =>
      rw [recorded]
      split <;> simp [ih]

theorem find_of_mem_recorded {skip : Bool} {seen : List κ} {cs : List (Part κ Unit)} {k : κ}
    {v : ν} (h : keyed k v ∈ (recorded skip find seen cs).1) : find k = some v := by
  induction cs generalizing seen with
  | nil => simp [recorded] at h
  | cons c cs ih =>
    cases c with
    | foreign m => exact ih (by simpa [recorded] using h)
    | keyed j u =>
      rw [recorded] at h
      split at h
      · exact ih h
      · next w hw =>
        rcases List.mem_cons.1 h with h | h
        · cases h
          split at hw
          · cases hw
          · exact hw
        · exact ih h

theorem mem_recorded_snd {skip : Bool} {seen : List κ} {cs : List (Part κ Unit)} {k : κ} :
    k ∈ (recorded skip find seen cs).2 ↔
      k ∈ seen ∨ k ∈ keys (recorded skip find seen cs).1 := by
  induction cs generalizing seen with
  | nil => simp [recorded]
  | cons c cs ih =>
    cases c with
    | foreign m => simpa [recorded] using ih
    | keyed j u =>
      rw [recorded]
      split
      · exact ih
      · simp [ih, or_assoc, or_left_comm]

theorem nodup_keys_recorded {skip : Bool} (seen : List κ) (cs : List (Part κ Unit)) :
    (keys (recorded skip find seen cs).1).Nodup ∧
      ∀ k ∈ keys (recorded skip find seen cs).1, k ∉ seen := by
  induction cs generalizing seen with
  | nil => simp [recorded]
  | cons c cs ih =>
    cases c with
    | foreign m => simpa [recorded] using ih seen
    | keyed j u =>
      rw [recorded]
      split
      · exact ih seen
      · next v hv =>
        obtain ⟨hnodup, hfresh⟩ := ih (j :: seen)
        have hj : j ∉ seen := by
          intro hj
          simp [hj] at hv
        refine ⟨?_, ?_⟩
        · rw [keys_keyed, List.nodup_cons]
          exact ⟨fun hm => hfresh j hm List.mem_cons_self, hnodup⟩
        · intro k hk
          rcases List.mem_cons.1 hk with rfl | hk
          · exact hj
          · exact fun hm => hfresh k hk (List.mem_cons_of_mem j hm)

/-- Parts whose keys have their values are all written. -/
theorem recorded_erase {ps : List (Part κ ν)} {seen : List κ} (hnodup : (keys ps).Nodup)
    (hfresh : ∀ k ∈ keys ps, k ∉ seen) (hfind : ∀ k v, keyed k v ∈ ps → find k = some v) :
    recorded false find seen (ps.map erase) = (ps, (keys ps).reverse ++ seen) := by
  induction ps generalizing seen with
  | nil => rfl
  | cons p ps ih =>
    have hrest : ∀ k v, keyed k v ∈ ps → find k = some v :=
      fun k v hm => hfind k v (List.mem_cons_of_mem p hm)
    cases p with
    | foreign n =>
      rw [List.map_cons, erase, recorded, ih hnodup hfresh hrest]
      rfl
    | keyed k v =>
      rw [keys_keyed, List.nodup_cons] at hnodup
      have hk : seen.contains k = false := by
        simpa using hfresh k List.mem_cons_self
      have hothers : ∀ j ∈ keys ps, j ∉ k :: seen := by
        intro j hj hm
        rcases List.mem_cons.1 hm with rfl | hm
        · exact hnodup.1 hj
        · exact hfresh j (List.mem_cons_of_mem k hj) hm
      rw [List.map_cons, erase, recorded, hk]
      simp only [Bool.or_self, Bool.false_eq_true, if_false, hfind k v List.mem_cons_self]
      rw [ih hnodup.2 hothers hrest]
      simp

theorem recorded_skip (seen : List κ) (cs : List (Part κ Unit)) :
    recorded true find seen cs = ((nodes cs).map foreign, seen) := by
  induction cs with
  | nil => rfl
  | cons c cs ih =>
    cases c with
    | foreign n => simp [recorded, ih]
    | keyed k u => simp [recorded, ih]

/-- All parts that are written: those of a list, and behind them the entries that it left out. -/
def written (skip : Bool) (find : κ → Option ν) (sort : List (κ × ν) → List (κ × ν))
    (es : List (κ × ν)) (cs : List (Part κ Unit)) : List (Part κ ν) :=
  let (ps, seen) := recorded skip find [] cs
  ps ++ (sort (es.filter fun e => !seen.contains e.1)).map fun e => keyed e.1 e.2

section Written

variable {sort : List (κ × ν) → List (κ × ν)} (hsort : ∀ es, (sort es).Perm es)
variable {es : List (κ × ν)} {cs : List (Part κ Unit)}

include hsort

theorem mem_written {skip : Bool} {p : Part κ ν} (h : p ∈ written skip find sort es cs) :
    (∃ n, p = foreign n ∧ foreign n ∈ cs) ∨
      ∃ k v, p = keyed k v ∧ (find k = some v ∨ (k, v) ∈ es) := by
  rw [written, List.mem_append, List.mem_map] at h
  rcases h with h | ⟨⟨k, v⟩, h, rfl⟩
  · cases p with
    | foreign n => exact .inl ⟨n, rfl, foreign_mem_recorded.1 h⟩
    | keyed k v => exact .inr ⟨k, v, rfl, .inl (find_of_mem_recorded h)⟩
  · rw [(hsort _).mem_iff, List.mem_filter] at h
    exact .inr ⟨k, v, rfl, .inr h.1⟩

omit hsort in
theorem foreign_mem_written {skip : Bool} {n : Node} :
    foreign n ∈ written skip find sort es cs ↔ foreign n ∈ cs := by
  rw [written, List.mem_append, foreign_mem_recorded]
  simp

theorem keyed_mem_written {skip : Bool} {k : κ} {v : ν} (hfind : find k = some v)
    (hes : (k, v) ∈ es) : keyed k v ∈ written skip find sort es cs := by
  rw [written, List.mem_append, List.mem_map]
  by_cases hk : k ∈ (recorded skip find [] cs).2
  · rw [mem_recorded_snd, mem_keys] at hk
    rcases hk with hk | ⟨w, hw⟩
    · cases hk
    · have hsame := find_of_mem_recorded hw
      rw [hfind] at hsame
      cases hsame
      exact .inl hw
  · refine .inr ⟨(k, v), ?_, rfl⟩
    rw [(hsort _).mem_iff, List.mem_filter]
    exact ⟨hes, by simpa using hk⟩

theorem nodup_keys_written {skip : Bool} (hes : (es.map Prod.fst).Nodup) :
    (keys (written skip find sort es cs)).Nodup := by
  rw [written, keys_append, keys_map_keyed, List.nodup_append]
  have hothers := (List.filter_sublist (p := fun e : κ × ν =>
    !(recorded skip find [] cs).2.contains e.1) (l := es)).map Prod.fst
  refine ⟨(nodup_keys_recorded [] cs).1, ?_, ?_⟩
  · exact ((hsort _).map Prod.fst).nodup_iff.2 (hothers.nodup hes)
  · intro j hj k hk heq
    obtain ⟨e, he, rfl⟩ := List.mem_map.1 hk
    rw [(hsort _).mem_iff, List.mem_filter] at he
    have hseen : e.1 ∈ (recorded skip find [] cs).2 := mem_recorded_snd.2 (.inr (heq ▸ hj))
    simp [hseen] at he

end Written

/-- Where all entries are among the parts, these are written as they stand. -/
theorem written_erase {sort : List (κ × ν) → List (κ × ν)} (hsort : sort [] = [])
    {ps : List (Part κ ν)} {es : List (κ × ν)} (hnodup : (keys ps).Nodup)
    (hfind : ∀ k v, keyed k v ∈ ps → find k = some v) (hes : ∀ e ∈ es, e.1 ∈ keys ps) :
    written false find sort es (ps.map erase) = ps := by
  have hrecorded : recorded false find [] (ps.map erase) = (ps, (keys ps).reverse ++ []) :=
    recorded_erase hnodup (by simp) hfind
  have hothers : (es.filter fun e => !(keys ps).reverse.contains e.1) = [] := by
    rw [List.filter_eq_nil_iff]
    intro e he
    simpa using hes e he
  rw [written, hrecorded, List.append_nil]
  simp only [hothers, hsort, List.map_nil, List.append_nil]

/-- Without recorded keys the nodes come first and all entries behind them. -/
theorem written_skip (sort : List (κ × ν) → List (κ × ν)) (es : List (κ × ν))
    (cs : List (Part κ Unit)) :
    written true find sort es cs =
      (nodes cs).map foreign ++ (sort es).map fun e => keyed e.1 e.2 := by
  have hall : (es.filter fun e => !([] : List κ).contains e.1) = es := by
    rw [List.filter_eq_self]
    simp
  rw [written, recorded_skip]
  simp only [hall]

end Recorded

end Part

/-! ## Reading -/

/-- What an element is taken for. -/
inductive Verdict (κ ν : Type) where
  | keyed (key : κ) (value : ν)
  | foreign
  | unsupported

section Reading

variable {κ ν : Type} (verdict : List κ → Element → Verdict κ ν)

/-- Nodes as parts, where `seen` are the keys of the parts before them. Texts are left out. -/
def readParts : List κ → List Node → Option (List (Part κ ν))
  | _, [] => some []
  | seen, .text _ :: rest => readParts seen rest
  | seen, .comment s :: rest => (readParts seen rest).map (.foreign (.comment s) :: ·)
  | seen, .element name attributes children :: rest =>
    match verdict seen ⟨name, attributes, children⟩ with
    | .unsupported => none
    | .foreign => (readParts seen rest).map (.foreign (.element name attributes children) :: ·)
    | .keyed k v => (readParts (seen ++ [k]) rest).map (.keyed k v :: ·)

/-- Parts that are taken for the same where they stand. -/
def Stable : List κ → List (Part κ ν) → Prop
  | _, [] => True
  | seen, .foreign n :: ps =>
    (∀ e, n.element? = some e → verdict seen e = .foreign) ∧ Stable seen ps
  | seen, .keyed k _ :: ps => k ∉ seen ∧ Stable (seen ++ [k]) ps

variable {verdict}

theorem readParts_of_foreign {seen : List κ} {n : Node} (hn : n.isText = false)
    (h : ∀ e, n.element? = some e → verdict seen e = .foreign) (ns : List Node) :
    readParts verdict seen (n :: ns) = (readParts verdict seen ns).map (.foreign n :: ·) := by
  cases n with
  | text s => cases hn
  | comment s => rfl
  | element name attributes children => rw [readParts, h ⟨name, attributes, children⟩ rfl]

theorem readParts_of_keyed {seen : List κ} {e : Element} {k : κ} {v : ν}
    (h : verdict seen e = .keyed k v) (ns : List Node) :
    readParts verdict seen (e.toNode :: ns) =
      (readParts verdict (seen ++ [k]) ns).map (.keyed k v :: ·) := by
  rw [Element.toNode, readParts, h]

theorem readParts_notTexts (seen : List κ) (ns : List Node) :
    readParts verdict seen (Node.notTexts ns) = readParts verdict seen ns := by
  induction ns generalizing seen with
  | nil => rfl
  | cons n ns ih =>
    cases n with
    | text s => exact ih seen
    | comment s => exact congrArg (Option.map _) (ih seen)
    | element name attributes children =>
      have hcons : Node.notTexts (.element name attributes children :: ns) =
          .element name attributes children :: Node.notTexts ns := rfl
      rw [hcons, readParts, readParts]
      cases verdict seen ⟨name, attributes, children⟩ with
      | unsupported => rfl
      | foreign => simp only [ih]
      | keyed k v => simp only [ih]

theorem readParts_append (seen : List κ) (ns ms : List Node) :
    readParts verdict seen (ns ++ ms) =
      (readParts verdict seen ns).bind fun ps =>
        (readParts verdict (seen ++ Part.keys ps) ms).map (ps ++ ·) := by
  induction ns generalizing seen with
  | nil => simp [readParts]
  | cons n ns ih =>
    cases n with
    | text s => exact ih seen
    | comment s =>
      rw [List.cons_append, readParts, readParts, ih]
      cases readParts verdict seen ns <;> simp [Function.comp_def]
    | element name attributes children =>
      rw [List.cons_append, readParts, readParts]
      cases verdict seen ⟨name, attributes, children⟩ with
      | unsupported => rfl
      | foreign =>
        simp only [ih]
        cases readParts verdict seen ns <;> simp [Function.comp_def]
      | keyed k v =>
        simp only [ih]
        cases readParts verdict (seen ++ [k]) ns <;> simp [Function.comp_def]

theorem mem_of_readParts {seen : List κ} {ns : List Node} {ps : List (Part κ ν)}
    (h : readParts verdict seen ns = some ps) {p : Part κ ν} (hp : p ∈ ps) :
    (∃ n ∈ ns, p = .foreign n ∧ n.isText = false) ∨
      ∃ e k v seen', e.toNode ∈ ns ∧ verdict seen' e = .keyed k v ∧ p = .keyed k v := by
  induction ns generalizing seen ps with
  | nil =>
    cases h
    cases hp
  | cons n ns ih =>
    -- whatever `n` adds to the keys, the other parts come from the nodes behind it
    have later {seen : List κ} {qs : List (Part κ ν)} (hread : readParts verdict seen ns = some qs)
        (hq : p ∈ qs) : (∃ m ∈ n :: ns, p = .foreign m ∧ m.isText = false) ∨
          ∃ e k v seen', e.toNode ∈ n :: ns ∧ verdict seen' e = .keyed k v ∧ p = .keyed k v := by
      rcases ih hread hq with ⟨m, hm, hrest⟩ | ⟨e, k, v, seen', he, hrest⟩
      · exact .inl ⟨m, List.mem_cons_of_mem n hm, hrest⟩
      · exact .inr ⟨e, k, v, seen', List.mem_cons_of_mem n he, hrest⟩
    cases n with
    | text s => exact later h hp
    | comment s =>
      simp only [readParts, Option.map_eq_some_iff] at h
      obtain ⟨qs, hread, rfl⟩ := h
      rcases List.mem_cons.1 hp with rfl | hq
      · exact .inl ⟨_, List.mem_cons_self, rfl, rfl⟩
      · exact later hread hq
    | element name attributes children =>
      rw [readParts] at h
      split at h
      · cases h
      · simp only [Option.map_eq_some_iff] at h
        obtain ⟨qs, hread, rfl⟩ := h
        rcases List.mem_cons.1 hp with rfl | hq
        · exact .inl ⟨_, List.mem_cons_self, rfl, rfl⟩
        · exact later hread hq
      · next k v hverdict =>
        simp only [Option.map_eq_some_iff] at h
        obtain ⟨qs, hread, rfl⟩ := h
        rcases List.mem_cons.1 hp with rfl | hq
        · exact .inr ⟨_, k, v, seen, List.mem_cons_self, hverdict, rfl⟩
        · exact later hread hq

/-- What is read of a node depends on the keys of the parts before it. -/
theorem readParts_at {seen : List κ} {before after : List Node} {n : Node}
    {ps : List (Part κ ν)} (h : readParts verdict seen (before ++ n :: after) = some ps)
    (hn : n.isText = false) :
    ∃ qs, readParts verdict seen before = some qs ∧ (∀ p ∈ qs, p ∈ ps) ∧
      ((.foreign n ∈ ps ∧ ∀ e, n.element? = some e → verdict (seen ++ Part.keys qs) e = .foreign) ∨
        ∃ e k v, n = e.toNode ∧ verdict (seen ++ Part.keys qs) e = .keyed k v ∧
          .keyed k v ∈ ps) := by
  rw [readParts_append, Option.bind_eq_some_iff] at h
  obtain ⟨qs, hqs, h⟩ := h
  obtain ⟨rs, hrs, rfl⟩ := Option.map_eq_some_iff.1 h
  refine ⟨qs, hqs, fun p hp => List.mem_append_left rs hp, ?_⟩
  cases n with
  | text s => cases hn
  | comment s =>
    obtain ⟨rest, -, rfl⟩ := Option.map_eq_some_iff.1 hrs
    exact .inl ⟨by simp, fun e he => by cases he⟩
  | element name attributes children =>
    rw [readParts] at hrs
    split at hrs
    · cases hrs
    · next hverdict =>
      obtain ⟨rest, -, rfl⟩ := Option.map_eq_some_iff.1 hrs
      refine .inl ⟨by simp, ?_⟩
      intro e he
      cases he
      exact hverdict
    · next k v hverdict =>
      obtain ⟨rest, -, rfl⟩ := Option.map_eq_some_iff.1 hrs
      exact .inr ⟨⟨name, attributes, children⟩, k, v, rfl, hverdict, by simp⟩

/-- Parts are stable where they were read, if only new keys are read. -/
theorem stable_of_readParts
    (hfresh : ∀ seen e k v, verdict seen e = .keyed k v → k ∉ seen) {seen : List κ}
    {ns : List Node} {ps : List (Part κ ν)} (h : readParts verdict seen ns = some ps) :
    Stable verdict seen ps := by
  induction ns generalizing seen ps with
  | nil =>
    cases h
    trivial
  | cons n ns ih =>
    cases n with
    | text s => exact ih h
    | comment s =>
      simp only [readParts, Option.map_eq_some_iff] at h
      obtain ⟨qs, hread, rfl⟩ := h
      exact ⟨(fun e he => by cases he), ih hread⟩
    | element name attributes children =>
      rw [readParts] at h
      split at h
      · cases h
      · next hverdict =>
        simp only [Option.map_eq_some_iff] at h
        obtain ⟨qs, hread, rfl⟩ := h
        refine ⟨?_, ih hread⟩
        intro e he
        cases he
        exact hverdict
      · next k v hverdict =>
        simp only [Option.map_eq_some_iff] at h
        obtain ⟨qs, hread, rfl⟩ := h
        exact ⟨hfresh _ _ _ _ hverdict, ih hread⟩

/-- A stable node is foreign behind the keys of the parts before it. -/
theorem Stable.foreign {seen : List κ} {ps : List (Part κ ν)} (h : Stable verdict seen ps)
    {n : Node} (hn : .foreign n ∈ ps) :
    ∃ seen', (∀ k ∈ seen', k ∈ seen ∨ k ∈ Part.keys ps) ∧
      ∀ e, n.element? = some e → verdict seen' e = .foreign := by
  induction ps generalizing seen with
  | nil => cases hn
  | cons p ps ih =>
    cases p with
    | foreign m =>
      rcases List.mem_cons.1 hn with heq | hn
      · cases heq
        exact ⟨seen, fun k hk => .inl hk, h.1⟩
      · exact ih h.2 hn
    | keyed j v =>
      rcases List.mem_cons.1 hn with heq | hn
      · cases heq
      · obtain ⟨seen', hseen, hverdict⟩ := ih h.2 hn
        refine ⟨seen', ?_, hverdict⟩
        intro k hk
        rcases hseen k hk with hk | hk
        · rcases List.mem_append.1 hk with hk | hk
          · exact .inl hk
          · exact .inr (List.mem_singleton.1 hk ▸ List.mem_cons_self)
        · exact .inr (List.mem_cons_of_mem j hk)

/-- Parts with keys of their own are stable if their nodes are foreign anywhere. -/
theorem stable_of_nodup {seen : List κ} {ps : List (Part κ ν)} (hnodup : (Part.keys ps).Nodup)
    (hfresh : ∀ k ∈ Part.keys ps, k ∉ seen)
    (hforeign : ∀ n, .foreign n ∈ ps → ∀ seen e, n.element? = some e →
      verdict seen e = .foreign) : Stable verdict seen ps := by
  induction ps generalizing seen with
  | nil => trivial
  | cons p ps ih =>
    have hrest : ∀ n, .foreign n ∈ ps → ∀ seen e, n.element? = some e →
        verdict seen e = .foreign := fun n hn => hforeign n (List.mem_cons_of_mem p hn)
    cases p with
    | foreign n => exact ⟨hforeign n List.mem_cons_self seen, ih hnodup hfresh hrest⟩
    | keyed k v =>
      rw [Part.keys_keyed, List.nodup_cons] at hnodup
      refine ⟨hfresh k List.mem_cons_self, ih hnodup.2 ?_ hrest⟩
      intro j hj hm
      rcases List.mem_append.1 hm with hm | hm
      · exact hfresh j (List.mem_cons_of_mem k hj) hm
      · exact hnodup.1 (List.mem_singleton.1 hm ▸ hj)

theorem Stable.nodup {seen : List κ} {ps : List (Part κ ν)} (h : Stable verdict seen ps) :
    (Part.keys ps).Nodup ∧ ∀ k ∈ Part.keys ps, k ∉ seen := by
  induction ps generalizing seen with
  | nil => simp
  | cons p ps ih =>
    cases p with
    | foreign n => exact ih h.2
    | keyed k v =>
      obtain ⟨hnodup, hfresh⟩ := ih h.2
      refine ⟨?_, ?_⟩
      · rw [Part.keys_keyed, List.nodup_cons]
        exact ⟨fun hm => hfresh k hm (by simp), hnodup⟩
      · intro j hj
        rcases List.mem_cons.1 hj with rfl | hj
        · exact h.1
        · exact fun hm => hfresh j hj (by simp [hm])

/-! ## Reading what was written -/

/-- An element is taken for a foreign one after its name and its attributes only. -/
def ByHead (verdict : List κ → Element → Verdict κ ν) : Prop :=
  ∀ seen (e e' : Element), e'.name = e.name → (∀ k, e'.attribute? k = e.attribute? k) →
    verdict seen e = .foreign → verdict seen e' = .foreign

theorem ByHead.reread (h : ByHead verdict) {seen : List κ} {n : Node} (hn : n.Tidy)
    (htext : n.isText = false) (tab level : Nat)
    (hforeign : ∀ e, n.element? = some e → verdict seen e = .foreign) :
    ∀ e, (n.reread tab level).element? = some e → verdict seen e = .foreign := by
  intro e' he'
  cases hn with
  | text s => cases htext
  | comment hs =>
    rw [Node.reread_comment] at he'
    cases he'
  | @element name attributes children hnodup hchildren hchain =>
    obtain ⟨children', hread⟩ := Node.reread_element tab level name attributes children
    rw [hread, Node.element?] at he'
    cases he'
    refine h seen ⟨name, attributes, children⟩ _ rfl ?_ (hforeign _ rfl)
    intro k
    exact Markup.lookup_sortNatural hnodup k

/-- Stable parts are read back from their blocks. -/
theorem readParts_blocks (hhead : ByHead verdict) {block : κ → ν → Block} {again : κ → ν → ν}
    {tab level : Nat} {ps : List (Part κ ν)} {seen : List κ}
    (hkeyed : ∀ k v seen, .keyed k v ∈ ps → k ∉ seen →
      ∃ e, (block k v).node tab level = e.toNode ∧ verdict seen e = .keyed k (again k v))
    (hforeign : ∀ n, .foreign n ∈ ps → n.isText = false ∧ n.Tidy)
    (hstable : Stable verdict seen ps) :
    readParts verdict seen ((ps.flatMap (Part.blocks block)).map (Block.node tab level)) =
      some (ps.map (Part.map again (Node.reread tab level))) := by
  induction ps generalizing seen with
  | nil => rfl
  | cons p ps ih =>
    have hkeyed' : ∀ k v seen, .keyed k v ∈ ps → k ∉ seen →
        ∃ e, (block k v).node tab level = e.toNode ∧ verdict seen e = .keyed k (again k v) :=
      fun k v seen hm => hkeyed k v seen (List.mem_cons_of_mem p hm)
    have hforeign' : ∀ n, .foreign n ∈ ps → n.isText = false ∧ n.Tidy :=
      fun n hm => hforeign n (List.mem_cons_of_mem p hm)
    rw [List.flatMap_cons, List.map_append, List.map_cons]
    cases p with
    | foreign n =>
      obtain ⟨hn, htidy⟩ := hforeign n List.mem_cons_self
      obtain ⟨b, hb, hnode, -⟩ := Node.exists_block hn tab level
      have hrest := ih hkeyed' hforeign' hstable.2
      have hverdict := hhead.reread htidy hn tab level hstable.1
      have htext := Node.isText_reread hn tab level
      rw [Part.blocks, hb, List.map_singleton, hnode, List.singleton_append, Part.map]
      rw [readParts_of_foreign htext hverdict, hrest, Option.map_some]
    | keyed k v =>
      obtain ⟨e, hnode, hverdict⟩ := hkeyed k v seen List.mem_cons_self hstable.1
      have hrest := ih hkeyed' hforeign' hstable.2
      rw [Part.blocks, List.map_singleton, hnode, List.singleton_append, Part.map,
        readParts_of_keyed hverdict, hrest, Option.map_some]

end Reading

/-! ## Parts that were written -/

section Contents

variable {κ ν : Type} {block : κ → ν → Block} {ps : List (Part κ ν)} {tab level : Nat}

theorem Part.node_mem_contents {k : κ} {v : ν} (h : .keyed k v ∈ ps)
    (htext : ((block k v).node tab (level + 1)).isText = false) :
    (block k v).node tab (level + 1) ∈
      Block.contents tab level (ps.flatMap (Part.blocks block)) :=
  Block.node_mem_contents (List.mem_flatMap.2 ⟨_, h, List.mem_singleton.2 rfl⟩) htext

theorem Part.reread_mem_contents {n : Node} (h : .foreign n ∈ ps) (htext : n.isText = false) :
    n.reread tab (level + 1) ∈ Block.contents tab level (ps.flatMap (Part.blocks block)) := by
  obtain ⟨b, hb, hnode, -⟩ := Node.exists_block htext tab (level + 1)
  have hmem : b ∈ ps.flatMap (Part.blocks block) := by
    rw [List.mem_flatMap]
    exact ⟨_, h, by rw [Part.blocks, hb]; exact List.mem_singleton.2 rfl⟩
  rw [← hnode]
  refine Block.node_mem_contents hmem ?_
  rw [hnode]
  exact Node.isText_reread htext tab (level + 1)

end Contents

end TranslationAudit.Catalog
