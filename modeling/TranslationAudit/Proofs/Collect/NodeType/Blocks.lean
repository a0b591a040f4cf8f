import Mathlib.Data.List.DropRight
import TranslationAudit.Proofs.Collect.KeyLine

/-! # Lines within blocks

* `NodeType.openBlocks`, `NodeType.marked?`: what one line does to the open blocks, and the label it
  marks. `NodeType.labels_cons`, `NodeType.labels_append`: lines are read one after the other.
* `NodeType.labels_append_frames`: lines that stand deeper than some blocks are read as if these
  were not open, and their labels lie below the keys of the blocks.
* `NodeType.labels_block`: behind the lines of a block it is forgotten.
* `NodeType.labels_line`: the labels of a file, as seen from one of its lines.
-/

namespace TranslationAudit.NodeType

open Text

variable {line : List Char} {ls rest : List (List Char)} {opened inner outer top : List Frame}
  {indent number : Nat}

/-! ## One line -/

/-- What a line says: its key and its value. -/
def keyValue? (line : List Char) : Option (String × List Char) :=
  if isSkipped (trim line) then none else splitKeyLine? (trim line)

/-- The key of the block that a line opens. -/
def opens? (line : List Char) : Option String :=
  (keyValue? line).bind fun (key, value) => if value.isEmpty then some key else none

/-- Whether a line marks a label. -/
def IsMark (line : List Char) : Prop := ∃ entry ∈ keyValue? line, isMarker entry.1 entry.2 = true

instance (line : List Char) : Decidable (IsMark line) :=
  inferInstanceAs (Decidable (∃ entry ∈ keyValue? line, isMarker entry.1 entry.2 = true))

/-- The blocks that lie around a line. -/
def around (opened : List Frame) (line : List Char) : List Frame :=
  opened.dropWhile fun f => f.indent ≥ indentOf line

/-- The keys of blocks, the outermost first. -/
def keysOf (opened : List Frame) : List String := (opened.map Frame.key).reverse

/-- The blocks that are open behind a line. -/
def openBlocks (opened : List Frame) (line : List Char) : List Frame :=
  if isSkipped (trim line) then opened
  else ((opens? line).map fun key => ⟨key, indentOf line⟩).toList ++ around opened line

/-- The label that a line marks. -/
def marked? (number : Nat) (opened : List Frame) (line : List Char) : Option Label :=
  if IsMark line then some ⟨number, keysOf (around opened line)⟩ else none

theorem isMarker_nil (key : String) : isMarker key [] = false := by
  rw [isMarker, Bool.and_eq_false_iff]
  exact .inr rfl

theorem labels_cons (number : Nat) (opened : List Frame) (line : List Char)
    (rest : List (List Char)) :
    labels number opened (line :: rest) =
      (marked? number opened line).toList ++ labels (number + 1) (openBlocks opened line) rest := by
  rw [labels, marked?, openBlocks]
  cases hskipped : isSkipped (trim line) with
  | true => simp [IsMark, keyValue?, hskipped]
  | false =>
    cases hsplit : splitKeyLine? (trim line) with
    | none => simp [IsMark, opens?, keyValue?, hskipped, hsplit, around]
    | some found =>
      obtain ⟨key, value⟩ := found
      cases value with
      | nil => simp [IsMark, opens?, keyValue?, hskipped, hsplit, around, isMarker_nil]
      | cons c value =>
        cases hmark : isMarker key (c :: value) <;>
          simp [IsMark, opens?, keyValue?, hskipped, hsplit, around, hmark, keysOf]

theorem labels_append (number : Nat) (opened : List Frame) (front rest : List (List Char)) :
    labels number opened (front ++ rest) =
      labels number opened front ++
        labels (number + front.length) (front.foldl openBlocks opened) rest := by
  induction front generalizing number opened with
  | nil => rfl
  | cons line front ih =>
    rw [List.cons_append, labels_cons, labels_cons, ih, List.append_assoc, List.foldl_cons,
      List.length_cons, Nat.add_right_comm, Nat.add_assoc]

/-! ## Lines that stand deeper -/

/-- Whether a line stands deeper than an indent. Blank lines and comments may stand anywhere. -/
def isDeeper (indent : Nat) (line : List Char) : Bool :=
  isSkipped (trim line) || indent < indentOf line

/-- A label below further keys. -/
def Label.within (keys : List String) (label : Label) : Label :=
  { label with path := keys ++ label.path }

theorem keysOf_append (inner outer : List Frame) :
    keysOf (inner ++ outer) = keysOf outer ++ keysOf inner := by
  rw [keysOf, List.map_append, List.reverse_append, keysOf, keysOf]

theorem around_append (houter : ∀ f ∈ outer.head?, f.indent < indentOf line)
    (inner : List Frame) : around (inner ++ outer) line = around inner line ++ outer := by
  have hself : outer.dropWhile (fun f => f.indent ≥ indentOf line) = outer := by
    cases outer with
    | nil => rfl
    | cons f outer =>
      have hf := houter f rfl
      rw [List.dropWhile_cons, if_neg (by simpa using hf)]
  rw [around, List.dropWhile_append, hself, around]
  split
  · next hnil => rw [List.isEmpty_iff.1 hnil, List.nil_append]
  · rfl

theorem openBlocks_append (hline : isDeeper indent line = true)
    (houter : ∀ f ∈ outer.head?, f.indent ≤ indent) (inner : List Frame) :
    openBlocks (inner ++ outer) line = openBlocks inner line ++ outer := by
  rw [openBlocks, openBlocks]
  split
  · rfl
  · next hskipped =>
    have hdeeper : indent < indentOf line := by simpa [isDeeper, hskipped] using hline
    rw [around_append (fun f hf => Nat.lt_of_le_of_lt (houter f hf) hdeeper), List.append_assoc]

theorem not_isSkipped_of_isMark (h : IsMark line) : isSkipped (trim line) = false := by
  obtain ⟨entry, hentry, -⟩ := h
  rw [keyValue?, Option.mem_def, Option.ite_none_left_eq_some] at hentry
  exact Bool.eq_false_iff.2 hentry.1

theorem marked?_append (hline : isDeeper indent line = true)
    (houter : ∀ f ∈ outer.head?, f.indent ≤ indent) (number : Nat) (inner : List Frame) :
    marked? number (inner ++ outer) line =
      (marked? number inner line).map (Label.within (keysOf outer)) := by
  rw [marked?, marked?]
  split
  · next hmark =>
    have hdeeper : indent < indentOf line := by
      simpa [isDeeper, not_isSkipped_of_isMark hmark] using hline
    rw [around_append (fun f hf => Nat.lt_of_le_of_lt (houter f hf) hdeeper), keysOf_append]
    rfl
  · rfl

/-- Lines that stand deeper than some blocks are read as if these were not open, with their labels
below the keys of the blocks. -/
theorem labels_append_frames (hls : ∀ line ∈ ls, isDeeper indent line = true)
    (houter : ∀ f ∈ outer.head?, f.indent ≤ indent) (number : Nat) (inner : List Frame) :
    labels number (inner ++ outer) ls =
      (labels number inner ls).map (Label.within (keysOf outer)) := by
  induction ls generalizing number inner with
  | nil => rfl
  | cons line ls ih =>
    rw [List.forall_mem_cons] at hls
    rw [labels_cons, labels_cons, marked?_append hls.1 houter, openBlocks_append hls.1 houter,
      ih hls.2, List.map_append, Option.toList_map]

theorem foldl_openBlocks_append (hls : ∀ line ∈ ls, isDeeper indent line = true)
    (houter : ∀ f ∈ outer.head?, f.indent ≤ indent) (inner : List Frame) :
    ls.foldl openBlocks (inner ++ outer) = ls.foldl openBlocks inner ++ outer := by
  induction ls generalizing inner with
  | nil => rfl
  | cons line ls ih =>
    rw [List.forall_mem_cons] at hls
    rw [List.foldl_cons, openBlocks_append hls.1 houter, ih hls.2, List.foldl_cons]

/-- Blocks that deeper lines open stand deeper themselves. -/
theorem lt_of_mem_foldl_openBlocks (hls : ∀ line ∈ ls, isDeeper indent line = true)
    (hinner : ∀ f ∈ inner, indent < f.indent) :
    ∀ f ∈ ls.foldl openBlocks inner, indent < f.indent := by
  induction ls generalizing inner with
  | nil => exact hinner
  | cons line ls ih =>
    rw [List.forall_mem_cons] at hls
    refine ih hls.2 fun f hf => ?_
    rw [openBlocks] at hf
    split at hf
    · exact hinner f hf
    · next hskipped =>
      have hdeeper : indent < indentOf line := by simpa [isDeeper, hskipped] using hls.1
      obtain hnew | hold := List.mem_append.1 hf
      · obtain ⟨key, -, rfl⟩ := Option.map_eq_some_iff.1 (Option.mem_toList.1 hnew)
        exact hdeeper
      · exact hinner f ((List.dropWhile_suffix _).subset hold)

/-! ## Behind a block -/

/-- What is read of a line depends on the blocks around it only. -/
theorem labels_congr_around (hskipped : isSkipped (trim line) = false)
    (haround : around inner line = around outer line) (number : Nat) (rest : List (List Char)) :
    labels number inner (line :: rest) = labels number outer (line :: rest) := by
  rw [labels_cons, labels_cons, marked?, marked?, openBlocks, openBlocks, haround, hskipped]
  rfl

/-- The lines behind a block are read as if it had never been open. -/
theorem labels_behind (htop : ∀ f ∈ top, indent ≤ f.indent) (number : Nat) (outer : List Frame)
    (rest : List (List Char)) :
    labels number (top ++ outer) (rest.dropWhile (isDeeper indent)) =
      labels number outer (rest.dropWhile (isDeeper indent)) := by
  cases hrest : rest.dropWhile (isDeeper indent) with
  | nil => rfl
  | cons line behind =>
    have hline : isDeeper indent line = false := by
      have hnot := List.head?_dropWhile_not (isDeeper indent) rest
      rwa [hrest] at hnot
    rw [isDeeper, Bool.or_eq_false_iff, decide_eq_false_iff_not, Nat.not_lt] at hline
    refine labels_congr_around hline.1 ?_ number behind
    have hclosed : ∀ f ∈ top, decide (f.indent ≥ indentOf line) = true := fun f hf =>
      decide_eq_true (Nat.le_trans hline.2 (htop f hf))
    rw [around, List.dropWhile_append_of_pos hclosed, around]

/-- The lines of a block are read on their own, below the keys around them, and the lines behind it
as if it had never been open. -/
theorem labels_block (htop : ∀ f ∈ top, f.indent = indent)
    (houter : ∀ f ∈ outer.head?, f.indent ≤ indent) (number : Nat) (rest : List (List Char)) :
    labels number (top ++ outer) rest =
      (labels number [] (rest.takeWhile (isDeeper indent))).map
          (Label.within (keysOf (top ++ outer))) ++
        labels (number + (rest.takeWhile (isDeeper indent)).length) outer
          (rest.dropWhile (isDeeper indent)) := by
  have hinside : ∀ line ∈ rest.takeWhile (isDeeper indent), isDeeper indent line = true :=
    List.all_eq_true.1 List.all_takeWhile
  have hframes : ∀ f ∈ (top ++ outer).head?, f.indent ≤ indent := by
    cases top with
    | nil => exact houter
    | cons f top =>
      rintro _ ⟨⟩
      exact Nat.le_of_eq (htop f List.mem_cons_self)
  have hopened : ∀ f ∈ (rest.takeWhile (isDeeper indent)).foldl openBlocks [] ++ top,
      indent ≤ f.indent := by
    intro f hf
    obtain hf | hf := List.mem_append.1 hf
    · exact Nat.le_of_lt (lt_of_mem_foldl_openBlocks hinside (by simp) f hf)
    · exact Nat.le_of_eq (htop f hf).symm
  nth_rewrite 1 [← List.takeWhile_append_dropWhile (p := isDeeper indent) (l := rest)]
  rw [labels_append, ← List.nil_append (top ++ outer), labels_append_frames hinside hframes,
    foldl_openBlocks_append hinside hframes, ← List.append_assoc, labels_behind hopened,
    List.nil_append]

/-! ## The labels around a line -/

/-- The keys of the blocks around a line, the outermost first. -/
def keysAround (front : List (List Char)) (line : List Char) : List String :=
  keysOf (around (front.foldl openBlocks []) line)

/-- The labels of the lines that stand deeper than a line, each with the keys from there on. -/
def labelsBelow (front : List (List Char)) (line : List Char) (rest : List (List Char)) :
    List Label :=
  labels (front.length + 2) [] (rest.takeWhile (isDeeper (indentOf line)))

/-- The labels of the lines behind those that stand deeper than a line. -/
def labelsBehind (front : List (List Char)) (line : List Char) (rest : List (List Char)) :
    List Label :=
  labels (front.length + 2 + (rest.takeWhile (isDeeper (indentOf line))).length)
    (around (front.foldl openBlocks []) line) (rest.dropWhile (isDeeper (indentOf line)))

theorem head?_around (opened : List Frame) (line : List Char) :
    ∀ f ∈ (around opened line).head?, f.indent ≤ indentOf line := by
  intro f hf
  have hnot := List.head?_dropWhile_not (fun f : Frame => decide (f.indent ≥ indentOf line)) opened
  rw [← around, Option.mem_def.1 hf] at hnot
  exact Nat.le_of_not_le (of_decide_eq_false hnot)

/-- The labels before a line, its own one, those below it and those behind them. -/
theorem labels_line (hskipped : isSkipped (trim line) = false) (front rest : List (List Char)) :
    labels 1 [] (front ++ line :: rest) =
      labels 1 [] front ++
        ((marked? (front.length + 1) (front.foldl openBlocks []) line).toList ++
          ((labelsBelow front line rest).map
              (Label.within (keysAround front line ++ (opens? line).toList)) ++
            labelsBehind front line rest)) := by
  have htop : ∀ f ∈ ((opens? line).map fun key => (⟨key, indentOf line⟩ : Frame)).toList,
      f.indent = indentOf line := by
    intro f hf
    obtain ⟨key, -, rfl⟩ := Option.map_eq_some_iff.1 (Option.mem_toList.1 hf)
    rfl
  have hkeys : keysOf ((opens? line).map fun key => (⟨key, indentOf line⟩ : Frame)).toList =
      (opens? line).toList := by
    cases opens? line <;> rfl
  rw [labels_append, labels_cons, openBlocks, hskipped, if_neg Bool.false_ne_true, Nat.add_comm 1,
    labels_block htop (head?_around _ line), keysOf_append, hkeys]
  rfl

end TranslationAudit.NodeType
