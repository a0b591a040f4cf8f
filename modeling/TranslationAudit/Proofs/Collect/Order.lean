import TranslationAudit.Proofs.Collect.Fusion
import TranslationAudit.Proofs.Collect.Php.Order
import TranslationAudit.Proofs.Message.ReferenceIndex
import TranslationAudit.Proofs.Project.References

/-! # The order of references

* `InLineOrder`: references of one file in the order of their lines.
* `inLineOrder_collectPhp`, `inLineOrder_collectNodeTypes`: such are those of these files.
* `Fusion.passes`: the references of a Fusion file by token. `Fusion.collectFusion_eq_flatten`: the
  file is searched for one token after the other.
* `collect_inOrder`: the order of the references of a project and its canonical references.
-/

namespace TranslationAudit

/-- References in the order of their lines. -/
def InLineOrder (rs : List Reference) : Prop := rs.Pairwise fun a b => a.line ≤ b.line

theorem lineAt_mono (text : List Char) {a b : Nat} (h : a ≤ b) : lineAt text a ≤ lineAt text b :=
  Nat.succ_le_succ ((List.take_sublist_take_left h).count_le _)

/-- What has places in the order of a list has references in the order of their lines. -/
theorem inLineOrder_filterMap {α : Type} {xs : List α} {place : α → Nat} {f : α → Option Reference}
    (h : xs.Pairwise fun a b => place a ≤ place b) (hf : ∀ x r, f x = some r → r.line = place x) :
    InLineOrder (xs.filterMap f) := by
  refine h.filterMap f fun a b hle r hr s hs => ?_
  rw [hf a r hr, hf b s hs]
  exact hle

/-! ## PHP -/

theorem Php.place_of_reference? {source : Array Char} {file : String} {line : Nat} {call : Call}
    {r : Reference} (h : reference? source file line call = some r) :
    r.file = file ∧ r.line = line := by
  unfold reference? at h
  dsimp only at h
  split at h
  · cases h
  · obtain ⟨key, -, rfl⟩ := Option.map_eq_some_iff.1 h
    exact ⟨rfl, rfl⟩

theorem inLineOrder_collectPhp (file text : String) : InLineOrder (collectPhp file text) := by
  unfold collectPhp
  dsimp only
  split
  · exact .nil
  · next program hread =>
    obtain ⟨tokens, htokens, hprogram⟩ := Option.bind_eq_some_iff.1 hread
    have hcalls : (program.calls text.toList.toArray).Pairwise fun a b => a.start ≤ b.start :=
      Php.pairwise_program (Php.pairwise_tokens htokens) hprogram
    exact inLineOrder_filterMap (hcalls.imp fun hle => lineAt_mono text.toList hle)
      fun _ _ h => (Php.place_of_reference? h).2

/-! ## Node types -/

theorem NodeType.place_of_reference? {file source : String} {contexts : Dict String String}
    {label : Label} {r : Reference} (h : reference? file source contexts label = some r) :
    r.file = file ∧ r.line = label.line := by
  unfold reference? at h
  split at h
  · cases h
  · split at h
    · cases h
    · split at h
      · cases h
      · obtain ⟨key, -, rfl⟩ := Option.map_eq_some_iff.1 h
        exact ⟨rfl, rfl⟩

/-- The labels of lines stand in lines of their own, from the first of these on. -/
theorem NodeType.pairwise_labels (number : Nat) (opened : List Frame) (ls : List (List Char)) :
    (∀ label ∈ labels number opened ls, number ≤ label.line) ∧
      (labels number opened ls).Pairwise fun a b => a.line < b.line := by
  induction ls generalizing number opened with
  | nil => exact ⟨nofun, .nil⟩
  | cons line ls ih =>
    have hskip (opened : List Frame) :
        (∀ label ∈ labels (number + 1) opened ls, number ≤ label.line) ∧
          (labels (number + 1) opened ls).Pairwise fun a b => a.line < b.line :=
      ⟨fun label hlabel => Nat.le_of_succ_le ((ih _ _).1 label hlabel), (ih _ _).2⟩
    rw [labels]
    dsimp only
    split
    · exact hskip _
    · split
      · exact hskip _
      · split
        · exact hskip _
        · split
          · refine ⟨List.forall_mem_cons.2 ⟨Nat.le_refl _, (hskip _).1⟩, ?_⟩
            exact List.pairwise_cons.2 ⟨fun label => (ih _ _).1 label, (ih _ _).2⟩
          · exact hskip _

theorem inLineOrder_collectNodeTypes (file text : String) :
    InLineOrder (collectNodeTypes file text) :=
  inLineOrder_filterMap ((NodeType.pairwise_labels 1 [] _).2.imp Nat.le_of_lt)
    fun _ _ h => (NodeType.place_of_reference? h).2

/-! ## Fusion -/

namespace Fusion

theorem place_of_reference? {file : String} {line : Nat} {call : RawCall} {r : Reference}
    (h : reference? file line call = some r) : r.file = file ∧ r.line = line := by
  obtain ⟨key, -, rfl⟩ := Option.map_eq_some_iff.1 h
  exact ⟨rfl, rfl⟩

/-- The references to what is found at places of a file. -/
def referencesAt (file text : String) (found : List (Nat × RawCall)) : List Reference :=
  found.filterMap fun (position, call) => reference? file (lineAt text.toList position) call

theorem Ascending.inLineOrder {found : List (Nat × RawCall)} (h : Ascending 0 found)
    (file text : String) : InLineOrder (referencesAt file text found) :=
  inLineOrder_filterMap
    (h.pairwise.imp fun hlt => lineAt_mono text.toList (Nat.le_of_lt hlt))
    fun _ _ h => (place_of_reference? h).2

/-- The references of a file by token: those of inline calls and then those of fluent ones. -/
def passes (file text : String) : List (List Reference) :=
  let taken := (inlineTokens.flatMap fun (token, isPlural) =>
    inlineCalls text.toList token isPlural).map Prod.fst
  inlineTokens.map (fun (token, isPlural) =>
      referencesAt file text (inlineCalls text.toList token isPlural)) ++
    fluentTokens.map fun (token, isPlural) =>
      referencesAt file text (fluentCalls text.toList taken token isPlural)

theorem collectFusion_eq_flatten (file text : String) :
    collectFusion file text = (passes file text).flatten := by
  simp only [collectFusion, calls, passes, List.flatMap_def, List.filterMap_append,
    List.filterMap_flatten, List.map_map, List.flatten_append]
  rfl

theorem inLineOrder_of_mem_passes {file text : String} {pass : List Reference}
    (h : pass ∈ passes file text) : InLineOrder pass := by
  obtain h | h := List.mem_append.1 h
  · obtain ⟨⟨token, isPlural⟩, -, rfl⟩ := List.mem_map.1 h
    exact (ascending_scan _ _ _ _ _ _).inLineOrder file text
  · obtain ⟨⟨token, isPlural⟩, -, rfl⟩ := List.mem_map.1 h
    exact (ascending_scan _ _ _ _ _ _).inLineOrder file text

end Fusion

/-! ## Canonical references -/

/-- The references of a file by the order in which they are looked for: those of a Fusion file by
token, all those of another one together. -/
def passes (format : SourceFormat) (file text : String) : List (List Reference) :=
  match format with
  | .fusion => Fusion.passes file text
  | format => [collectReferences format file text]

theorem collectReferences_eq_flatten (format : SourceFormat) (file text : String) :
    collectReferences format file text = (passes format file text).flatten := by
  cases format with
  | fusion => exact Fusion.collectFusion_eq_flatten file text
  | _ => simp [passes]

theorem inLineOrder_of_mem_passes {format : SourceFormat} {file text : String}
    {pass : List Reference} (h : pass ∈ passes format file text) : InLineOrder pass := by
  cases format with
  | php =>
    rw [List.mem_singleton.1 h]
    exact inLineOrder_collectPhp file text
  | fusion => exact Fusion.inLineOrder_of_mem_passes h
  | yaml =>
    rw [List.mem_singleton.1 h]
    exact inLineOrder_collectNodeTypes file text

/-- A file is in the order of its lines if no reference comes before one of an earlier pass. -/
theorem inLineOrder_collectReferences_iff (format : SourceFormat) (file text : String) :
    InLineOrder (collectReferences format file text) ↔
      (passes format file text).Pairwise fun earlier later =>
        ∀ a ∈ earlier, ∀ b ∈ later, a.line ≤ b.line := by
  rw [collectReferences_eq_flatten, InLineOrder, List.pairwise_flatten]
  exact and_iff_right fun _ => inLineOrder_of_mem_passes

theorem file_of_mem_collectReferences {format : SourceFormat} {file text : String} {r : Reference}
    (h : r ∈ collectReferences format file text) : r.file = file := by
  cases format with
  | php =>
    simp only [collectReferences, collectPhp] at h
    split at h
    · cases h
    · obtain ⟨call, -, hr⟩ := List.mem_filterMap.1 h
      exact (Php.place_of_reference? hr).1
  | fusion =>
    obtain ⟨call, -, hr⟩ := List.mem_filterMap.1 h
    exact (Fusion.place_of_reference? hr).1
  | yaml =>
    obtain ⟨label, -, hr⟩ := List.mem_filterMap.1 h
    exact (NodeType.place_of_reference? hr).1

theorem file_of_mem_referencesIn {tree : FileTree} {file : String} {r : Reference}
    (h : r ∈ Project.referencesIn tree file) : r.file = file := by
  unfold Project.referencesIn at h
  split at h
  · exact file_of_mem_collectReferences h
  · cases h

/-- The passes over a file that can be read. -/
def passesIn (tree : FileTree) (file : String) : List (List Reference) :=
  match sourceFormat? file, tree.read file with
  | some format, .ok text => passes format file text
  | _, _ => []

/-- A reference to a key that is the first one in lists: it stands in the first list that has one,
and none of this list stands in an earlier line. -/
def IsFirst (r : Reference) (k : Key) (lists : List (List Reference)) : Prop :=
  r.key = k ∧ ∃ earlier pass later, lists = earlier ++ pass :: later ∧ r ∈ pass ∧
    (∀ other ∈ earlier, ∀ s ∈ other, s.key ≠ k) ∧ ∀ s ∈ pass, s.key = k → r.line ≤ s.line

/-- Of references in line order the first one to a key stands in the first line that has one. -/
theorem InLineOrder.line_le {rs : List Reference} (h : InLineOrder rs) {k : Key} {r s : Reference}
    (hr : rs.find? (fun s => s.key = k) = some r) (hs : s ∈ rs) (hk : s.key = k) :
    r.line ≤ s.line := by
  obtain ⟨-, front, rest, rfl, hfront⟩ := List.find?_eq_some_iff_append.1 hr
  obtain hs | hs := List.mem_append.1 hs
  · have hne : s.key ≠ k := by simpa using hfront s hs
    exact absurd hk hne
  · obtain rfl | hs := List.mem_cons.1 hs
    · exact Nat.le_refl _
    · exact (List.pairwise_cons.1 (List.pairwise_append.1 h).2.1).1 s hs

theorem isFirst_of_find? {lists : List (List Reference)} {k : Key} {r : Reference}
    (hr : lists.flatten.find? (fun s => s.key = k) = some r)
    (hline : ∀ pass ∈ lists, pass.find? (fun s => s.key = k) = some r →
      ∀ s ∈ pass, s.key = k → r.line ≤ s.line) : IsFirst r k lists := by
  have hkey : r.key = k := by simpa using List.find?_some hr
  rw [List.find?_flatten, List.findSome?_eq_some_iff] at hr
  obtain ⟨earlier, pass, later, rfl, hr, hearlier⟩ := hr
  refine ⟨hkey, earlier, pass, later, rfl, List.mem_of_find?_eq_some hr, ?_,
    hline pass (by simp) hr⟩
  intro other hother s hs
  simpa using List.find?_eq_none.1 (hearlier other hother) s hs

theorem referencesIn_eq_flatten (tree : FileTree) (file : String) :
    Project.referencesIn tree file = (passesIn tree file).flatten := by
  unfold Project.referencesIn passesIn
  cases sourceFormat? file with
  | none => rfl
  | some format =>
    cases tree.read file with
    | error => rfl
    | ok text => exact collectReferences_eq_flatten format file text

theorem inLineOrder_of_mem_passesIn {tree : FileTree} {file : String} {pass : List Reference}
    (h : pass ∈ passesIn tree file) : InLineOrder pass := by
  unfold passesIn at h
  split at h
  · exact inLineOrder_of_mem_passes h
  · cases h

/-- The canonical reference of a key is the first one in the order of files and passes. -/
theorem isFirst_canonical {tree : FileTree} {files : List String} {k : Key} {r : Reference}
    (hr : (ReferenceIndex.ofReferences
      (files.flatMap (Project.referencesIn tree))).get? k = some r) :
    IsFirst r k (files.flatMap (passesIn tree)) := by
  have hflatten : files.flatMap (Project.referencesIn tree) =
      (files.flatMap (passesIn tree)).flatten := by
    rw [List.flatMap_def, List.flatMap_def, List.flatten_flatten, List.map_map]
    refine congrArg List.flatten (List.map_congr_left fun file _ => ?_)
    exact referencesIn_eq_flatten tree file
  rw [ReferenceIndex.get?_ofReferences, hflatten] at hr
  refine isFirst_of_find? hr fun pass hpass hfind s hs hk => ?_
  obtain ⟨file, -, hfile⟩ := List.mem_flatMap.1 hpass
  exact (inLineOrder_of_mem_passesIn hfile).line_le hfind hs hk

/-- It is the first one in the order of files and lines if its file has none in an earlier line. -/
theorem isFirst_canonical_iff {tree : FileTree} {files : List String} {k : Key} {r : Reference}
    (hr : (ReferenceIndex.ofReferences
      (files.flatMap (Project.referencesIn tree))).get? k = some r) :
    IsFirst r k (files.map (Project.referencesIn tree)) ↔
      ∀ s ∈ Project.referencesIn tree r.file, s.key = k → r.line ≤ s.line := by
  constructor
  · rintro ⟨-, earlier, pass, later, hlists, hmem, -, hline⟩
    have hpass : pass ∈ files.map (Project.referencesIn tree) := by simp [hlists]
    obtain ⟨file, -, rfl⟩ := List.mem_map.1 hpass
    rwa [file_of_mem_referencesIn hmem]
  · intro hline
    rw [ReferenceIndex.get?_ofReferences, List.flatMap_def] at hr
    refine isFirst_of_find? hr fun pass hpass hfind => ?_
    obtain ⟨file, -, rfl⟩ := List.mem_map.1 hpass
    rwa [file_of_mem_referencesIn (List.mem_of_find?_eq_some hfind)] at hline

/-- References come pass by pass, and within a pass in the order of their lines. The references of
PHP files and node types are one pass; those of a Fusion file are in the order of their lines only
if its passes follow one another. The canonical reference of a key is the first one in the order
of files and passes; it is the first one in the order of files and lines if its file has no other
one in an earlier line. These are the references that a run finds, unless it stops. -/
theorem collect_inOrder (format : SourceFormat) (file text : String) (tree : FileTree)
    (files : List String) (k : Key) :
    collectReferences format file text = (passes format file text).flatten ∧
      (∀ pass ∈ passes format file text, InLineOrder pass) ∧
      (format ≠ .fusion → InLineOrder (collectReferences format file text)) ∧
      (InLineOrder (collectReferences format file text) ↔
        (passes format file text).Pairwise fun earlier later =>
          ∀ a ∈ earlier, ∀ b ∈ later, a.line ≤ b.line) ∧
      (∀ r, (ReferenceIndex.ofReferences
          (files.flatMap (Project.referencesIn tree))).get? k = some r →
        IsFirst r k (files.flatMap (passesIn tree)) ∧
          (IsFirst r k (files.map (Project.referencesIn tree)) ↔
            ∀ s ∈ Project.referencesIn tree r.file, s.key = k → r.line ≤ s.line)) ∧
      (∀ found, collectReferences? format file text = some found →
        found = collectReferences format file text) ∧
      ∀ found, files.mapM (Project.referencesIn? tree) = some found →
        found = files.map (Project.referencesIn tree) := by
  refine ⟨collectReferences_eq_flatten format file text, fun _ => inLineOrder_of_mem_passes, ?_,
    inLineOrder_collectReferences_iff format file text,
    fun r hr => ⟨isFirst_canonical hr, isFirst_canonical_iff hr⟩, fun _ => eq_of_collectReferences?,
    fun _ => eq_map_of_mapM fun _ _ => Project.eq_of_referencesIn?⟩
  intro hformat
  cases format with
  | php => exact inLineOrder_collectPhp file text
  | fusion => exact absurd rfl hformat
  | yaml => exact inLineOrder_collectNodeTypes file text

/-- A message that is named by calls of two tokens. -/
def twoTokens : FileTree where
  nodes := ⟨[(["a.fusion"], .text "I18n.plural('A:M:a')\nI18n.translate('A:M:a')\n")]⟩

/-- The canonical reference is not in the first line: the token there is looked for later. -/
theorem collect_inOrder_twoTokens :
    InLineOrder (collectReferences .php "a.php" "<?php\nI18n::plural('A:M:a');\n") ∧
      ∃ r, IsFirst r ⟨"A", "M", "a"⟩ (["/a.fusion"].flatMap (passesIn twoTokens)) ∧ r.line = 2 ∧
        ¬IsFirst r ⟨"A", "M", "a"⟩ (["/a.fusion"].map (Project.referencesIn twoTokens)) := by
  have hcanonical : (ReferenceIndex.ofReferences
      (["/a.fusion"].flatMap (Project.referencesIn twoTokens))).get? ⟨"A", "M", "a"⟩ =
        some { key := ⟨"A", "M", "a"⟩, file := "/a.fusion", line := 2, format := .fusion } := by
    decide +kernel
  have hearlier : ∃ s ∈ Project.referencesIn twoTokens "/a.fusion",
      s.key = ⟨"A", "M", "a"⟩ ∧ s.line < 2 := by
    decide +kernel
  obtain ⟨-, -, hphp, -, hfirst, -⟩ := collect_inOrder .php "a.php"
    "<?php\nI18n::plural('A:M:a');\n" twoTokens ["/a.fusion"] ⟨"A", "M", "a"⟩
  obtain ⟨hpasses, hlines⟩ := hfirst _ hcanonical
  refine ⟨hphp (by decide), _, hpasses, rfl, fun h => ?_⟩
  obtain ⟨s, hs, hk, hlt⟩ := hearlier
  exact Nat.not_le_of_lt hlt (hlines.1 h s hs hk)

end TranslationAudit
