import TranslationAudit.Collect.Php.Grammar

/-! # Trees that a grammar reads

* `Php.Tree.Solid`: trees in which every node holds a token.
* `Php.Rule.consumes`, `Php.Rule.Sound`: rules that always take a token, and rules whose nodes do.
* `Php.Rule.reads_run`: sound rules read solid trees, and the leaves of these trees are tokens of
  the text in their order, before the tokens that are left.
* `Php.sound_grammar`: the rules of the grammar are sound.
-/

namespace TranslationAudit.Php

namespace Tree

/-- Trees in which every node holds a token. -/
inductive Solid : Tree → Prop
  | leaf (t : Token) : Solid (.leaf t)
  | node {k : PartKind} {xs : List Tree} :
      leavesOf xs ≠ [] → (∀ x ∈ xs, Solid x) → Solid (.node k xs)

theorem leavesOf_append (xs ys : List Tree) : leavesOf (xs ++ ys) = leavesOf xs ++ leavesOf ys := by
  induction xs with
  | nil => rfl
  | cons x xs ih => rw [List.cons_append, leavesOf, leavesOf, ih, List.append_assoc]

theorem leavesOf_singleton (t : Tree) : leavesOf [t] = t.leaves := by
  rw [leavesOf, leavesOf, List.append_nil]

theorem Solid.leaves_ne_nil {t : Tree} (h : t.Solid) : t.leaves ≠ [] := by
  cases h with
  | leaf t => simp [leaves]
  | node h _ => rwa [leaves]

/-- A node stays solid when it gets another first child. -/
theorem Solid.adopt {t : Tree} {k : PartKind} {xs : List Tree} (ht : t.Solid)
    (h : (Tree.node k xs).Solid) : (Tree.node k (t :: xs)).Solid := by
  cases h with
  | node hleaves hxs =>
    refine .node ?_ (List.forall_mem_cons.2 ⟨ht, hxs⟩)
    rw [leavesOf, Ne, List.append_eq_nil_iff]
    exact fun h => hleaves h.2

end Tree

namespace Rule

open TranslationAudit.Php.Tree

variable {N : Type} {table : N → Bool} {grammar : N → Rule N} {fuel : Nat}
variable {a b r : Rule N} {ts rest : List Token} {xs ys : List Tree}

/-! ## Rules that take tokens -/

/-- Whether a rule takes at least one token wherever it fits. `table` says so of the names. -/
def consumes (table : N → Bool) : Rule N → Bool
  | .terminal _ => true
  | .seq a b => consumes table a || consumes table b
  | .alt a b => consumes table a && consumes table b
  | .node _ r => consumes table r
  | .chain base _ => consumes table base
  | .ref n => table n
  | _ => false

/-- Rules that build no node without a token. -/
def Sound (table : N → Bool) : Rule N → Prop
  | .seq a b => Sound table a ∧ Sound table b
  | .alt a b => Sound table a ∧ Sound table b
  | .many r => Sound table r
  | .notAhead r => Sound table r
  | .node _ r => consumes table r = true ∧ Sound table r
  | .chain base suffix => Sound table base ∧ ∀ t, Sound table (suffix t)
  | .grow _ _ => False
  | _ => True

/-! ## What a rule reads -/

/-- What is read of a token list: solid trees of some of its tokens. `taken` tells that there is at
least one such token. -/
structure Reading (taken : Bool) (ts : List Token) (xs : List Tree) (rest : List Token) :
    Prop where
  sublist : (leavesOf xs ++ rest).Sublist ts
  solid : ∀ x ∈ xs, x.Solid
  leaves_ne_nil : taken = true → leavesOf xs ≠ []

theorem Reading.nothing (ts : List Token) : Reading false ts [] ts :=
  ⟨List.Sublist.refl _, by simp, by simp⟩

theorem Reading.token {t : Token} (h : (t :: rest).Sublist ts) (taken : Bool) :
    Reading taken ts [.leaf t] rest :=
  ⟨by simpa [leavesOf, leaves] using h, by simpa using .leaf t, by simp [leavesOf, leaves]⟩

theorem Reading.append {taken taken' : Bool} {mid : List Token} (h : Reading taken ts xs mid)
    (h' : Reading taken' mid ys rest) : Reading (taken || taken') ts (xs ++ ys) rest := by
  refine ⟨?_, ?_, ?_⟩
  · rw [leavesOf_append, List.append_assoc]
    exact (List.Sublist.append_left h'.sublist _).trans h.sublist
  · intro x hx
    exact (List.mem_append.1 hx).elim (h.solid x) (h'.solid x)
  · intro htaken
    rw [leavesOf_append, Ne, List.append_eq_nil_iff]
    rintro ⟨hxs, hys⟩
    rcases Bool.or_eq_true_iff.1 htaken with ht | ht
    · exact h.leaves_ne_nil ht hxs
    · exact h'.leaves_ne_nil ht hys

theorem Reading.of_le {taken taken' : Bool} (h : Reading taken ts xs rest)
    (hle : taken' = true → taken = true) : Reading taken' ts xs rest :=
  ⟨h.sublist, h.solid, fun ht => h.leaves_ne_nil (hle ht)⟩

theorem Reading.node (h : Reading true ts xs rest) (k : PartKind) (taken : Bool) :
    Reading taken ts [.node k xs] rest := by
  have hleaves := h.leaves_ne_nil rfl
  refine ⟨?_, ?_, ?_⟩
  · rw [leavesOf_singleton, leaves]
    exact h.sublist
  · simpa using .node hleaves h.solid
  · rw [leavesOf_singleton, leaves]
    exact fun _ => hleaves

/-- What more suffixes make of a tree. -/
def Grown (t : Tree) (ts : List Token) (xs : List Tree) (rest : List Token) : Prop :=
  ∃ t', xs = [t'] ∧ t'.Solid ∧ (t'.leaves ++ rest).Sublist (t.leaves ++ ts)

theorem Reading.grown {t : Tree} {mid : List Token} {taken : Bool} (h : Reading taken ts [t] mid)
    (hgrown : Grown t mid xs rest) (taken' : Bool) : Reading taken' ts xs rest := by
  obtain ⟨t', rfl, hsolid, hsublist⟩ := hgrown
  refine ⟨?_, by simpa using hsolid, ?_⟩
  · rw [leavesOf_singleton]
    exact hsublist.trans (leavesOf_singleton t ▸ h.sublist)
  · rw [leavesOf_singleton]
    exact fun _ => hsolid.leaves_ne_nil

/-- A suffix takes a tree as the first child of its node. -/
theorem Grown.of_suffix {t : Tree} {k : PartKind} {mid : List Token} {taken : Bool}
    (h : Reading taken ts [.node k ys] mid) (hgrown : Grown (.node k (t :: ys)) mid xs rest) :
    Grown t ts xs rest := by
  obtain ⟨t', hxs, hsolid, hsublist⟩ := hgrown
  refine ⟨t', hxs, hsolid, hsublist.trans ?_⟩
  have hys := h.sublist
  rw [leavesOf_singleton, leaves] at hys
  rw [leaves, leavesOf, List.append_assoc]
  exact List.Sublist.append_left hys _

/-! ### Rules that read one token at most -/

theorem reading_terminal {accepts : Token → Bool} (taken : Bool)
    (h : run grammar (fuel + 1) (.terminal accepts) ts = some (xs, rest)) :
    Reading taken ts xs rest := by
  simp only [run] at h
  split at h
  · next t rest' hdrop =>
    split at h
    · cases h
      exact .token (hdrop ▸ List.dropWhile_sublist _) _
    · cases h
  · cases h

theorem reading_adjacent (h : run grammar (fuel + 1) .adjacent ts = some (xs, rest)) :
    Reading false ts xs rest := by
  simp only [run] at h
  split at h
  · split at h
    · cases h
    · cases h
      exact .nothing _
  · cases h
    exact .nothing _

theorem reading_semicolon (h : run grammar (fuel + 1) .semicolon ts = some (xs, rest)) :
    Reading false ts xs rest := by
  simp only [run] at h
  split at h
  · split at h
    · cases h
      exact .nothing _
    · split at h
      · cases h
        exact .token (List.Sublist.refl _) _
      · cases h
  · cases h

/-! ### All rules -/

/-- What the rules of a grammar read with a number of steps to go. -/
structure Reads (table : N → Bool) (grammar : N → Rule N) (fuel : Nat) : Prop where
  reading : ∀ rule : Rule N, rule.Sound table → ∀ ts xs rest,
    run grammar fuel rule ts = some (xs, rest) → Reading (rule.consumes table) ts xs rest
  grown : ∀ t suffix, t.Solid → (∀ t, (suffix t).Sound table) → ∀ ts xs rest,
    run grammar fuel (.grow t suffix) ts = some (xs, rest) → Grown t ts xs rest

theorem Reads.reading_succ (ih : Reads table grammar fuel) (hsound : ∀ n, (grammar n).Sound table)
    (htable : ∀ n, table n = true → (grammar n).consumes table = true) {rule : Rule N}
    (hrule : rule.Sound table) (h : run grammar (fuel + 1) rule ts = some (xs, rest)) :
    Reading (rule.consumes table) ts xs rest := by
  cases rule with
  | empty =>
    cases h
    exact .nothing _
  | terminal accepts => exact reading_terminal _ h
  | adjacent => exact reading_adjacent h
  | semicolon => exact reading_semicolon h
  | seq a b =>
    rw [run] at h
    split at h
    · cases h
    · next xs mid ha =>
      obtain ⟨⟨ys, rest'⟩, hb, heq⟩ := Option.map_eq_some_iff.1 h
      cases heq
      exact (ih.reading a hrule.1 _ _ _ ha).append (ih.reading b hrule.2 _ _ _ hb)
  | alt a b =>
    rw [run] at h
    split at h
    · exact (ih.reading b hrule.2 _ _ _ h).of_le fun ht => (Bool.and_eq_true_iff.1 ht).2
    · next found ha =>
      cases h
      exact (ih.reading a hrule.1 _ _ _ ha).of_le fun ht => (Bool.and_eq_true_iff.1 ht).1
  | many r =>
    rw [run] at h
    split at h
    · cases h
      exact .nothing _
    · next xs mid hr =>
      obtain ⟨⟨ys, rest'⟩, hmany, heq⟩ := Option.map_eq_some_iff.1 h
      cases heq
      have hfirst := ih.reading r hrule _ _ _ hr
      exact (hfirst.append (ih.reading (.many r) hrule _ _ _ hmany)).of_le nofun
  | notAhead r =>
    rw [run] at h
    split at h
    · cases h
      exact .nothing _
    · cases h
  | node k r =>
    rw [run] at h
    obtain ⟨⟨ys, rest'⟩, hr, heq⟩ := Option.map_eq_some_iff.1 h
    cases heq
    exact ((ih.reading r hrule.2 _ _ _ hr).of_le fun _ => hrule.1).node k _
  | chain base suffix =>
    rw [run] at h
    split at h
    · next t mid hbase =>
      have hread := ih.reading base hrule.1 _ _ _ hbase
      have hsolid := hread.solid t List.mem_cons_self
      exact hread.grown (ih.grown t suffix hsolid hrule.2 _ _ _ h) _
    · exact ih.reading base hrule.1 _ _ _ h
  | grow t suffix => exact hrule.elim
  | ref n =>
    rw [run] at h
    exact (ih.reading (grammar n) (hsound n) _ _ _ h).of_le (htable n)

theorem Reads.grown_succ (ih : Reads table grammar fuel) {t : Tree} {suffix : Tree → Rule N}
    (ht : t.Solid) (hsuffix : ∀ t, (suffix t).Sound table)
    (h : run grammar (fuel + 1) (.grow t suffix) ts = some (xs, rest)) : Grown t ts xs rest := by
  rw [run] at h
  split at h
  · next k xs mid hr =>
    have hread := ih.reading (suffix t) (hsuffix t) _ _ _ hr
    have hnode : (Tree.node k xs).Solid := hread.solid _ List.mem_cons_self
    exact (ih.grown _ suffix (ht.adopt hnode) hsuffix _ _ _ h).of_suffix hread
  · cases h
    exact ⟨t, rfl, ht, List.Sublist.refl _⟩

theorem reads_run (hsound : ∀ n, (grammar n).Sound table)
    (htable : ∀ n, table n = true → (grammar n).consumes table = true) (fuel : Nat) :
    Reads table grammar fuel := by
  induction fuel with
  | zero => exact ⟨nofun, nofun⟩
  | succ fuel ih =>
    exact ⟨fun _ hrule _ _ _ h => ih.reading_succ hsound htable hrule h,
      fun _ _ ht hsuffix _ _ _ h => ih.grown_succ ht hsuffix h⟩

/-! ## Combinations of rules -/

section Combinations

variable {rules : List (Rule N)}

@[simp] theorem consumes_terminal (accepts : Token → Bool) :
    (terminal accepts : Rule N).consumes table = true := rfl

@[simp] theorem consumes_all : (all rules).consumes table = rules.any (consumes table) := by
  induction rules with
  | nil => rfl
  | cons r rules ih => rw [List.any_cons, ← ih]; rfl

@[simp] theorem consumes_first : (first rules).consumes table = rules.all (consumes table) := by
  induction rules with
  | nil => rfl
  | cons r rules ih => rw [List.all_cons, ← ih]; rfl

@[simp] theorem consumes_optional : (optional r).consumes table = false := Bool.and_false _

@[simp] theorem consumes_commas : (commas r).consumes table = r.consumes table := Bool.or_false _

@[simp] theorem sound_terminal (accepts : Token → Bool) :
    (terminal accepts : Rule N).Sound table := trivial

@[simp] theorem sound_all : (all rules).Sound table ↔ ∀ r ∈ rules, r.Sound table := by
  induction rules with
  | nil => exact iff_of_true trivial nofun
  | cons r rules ih => rw [List.forall_mem_cons, ← ih]; rfl

@[simp] theorem sound_first : (first rules).Sound table ↔ ∀ r ∈ rules, r.Sound table := by
  induction rules with
  | nil => exact iff_of_true trivial nofun
  | cons r rules ih => rw [List.forall_mem_cons, ← ih]; rfl

@[simp] theorem sound_optional : (optional r).Sound table ↔ r.Sound table := and_iff_left trivial

@[simp] theorem sound_commas : (commas r).Sound table ↔ r.Sound table :=
  ⟨fun h => h.1, fun h => ⟨h, trivial, h⟩⟩

@[simp] theorem sound_commaList : (commaList r).Sound table ↔ r.Sound table := by
  rw [commaList, sound_optional]
  exact ⟨fun h => sound_commas.1 h.1, fun h => ⟨sound_commas.2 h, trivial, trivial⟩⟩

end Combinations

end Rule

/-! ## The grammar -/

/-- The constructs that always take a token. -/
def Construct.isFilled : Construct → Bool
  | .attributes => false
  | _ => true

theorem consumes_grammar (c : Construct) (h : c.isFilled = true) :
    (grammar c).consumes Construct.isFilled = true := by
  cases c with
  | attributes => cases h
  | _ => rfl

section Grammar

open Grammar Rule

attribute [local simp] Sound consumes Construct.isFilled part expression symbol symbolIn word wordIn
  wordNotIn anyWord ofKind anyVariable qualified

variable {t : Tree}

theorem sound_assignmentSuffix : (assignmentSuffix t).Sound Construct.isFilled := by
  unfold assignmentSuffix
  split
  · simp
  · exact trivial

theorem sound_accessSuffix : (accessSuffix t).Sound Construct.isFilled := by
  unfold accessSuffix
  split <;> simp [never]

theorem sound_operatorSuffix : (operatorSuffix t).Sound Construct.isFilled := by
  simp [operatorSuffix]

theorem sound_statement : statement.Sound Construct.isFilled := by
  simp [statement, ifStatement, switchStatement, Grammar.cases, forStatement, foreachStatement,
    tryStatement, declareStatement, functionDefinition, classDefinition, otherDefinition,
    namespaceDefinition, useDeclaration, staticDeclaration, constantElements, signature, returnType,
    extension, interfaces, initializer, statements, bodyOr, reference]

theorem sound_classMember : classMember.Sound Construct.isFilled := by
  simp [classMember, traitUse, propertyHooks, visibility, modifier, constants, constantElements,
    signature, returnType, initializer]

theorem sound_parameter : parameter.Sound Construct.isFilled := by
  simp [parameter, propertyHooks, visibility, initializer]

theorem sound_operand : operand.Sound Construct.isFilled := by
  simp [operand, Grammar.closure, matchExpression, yieldExpression, bareCreation, signature,
    returnType, sound_assignmentSuffix]

theorem sound_primary : primary.Sound Construct.isFilled := by
  simp [primary, template, parenthesized, completeCreation, extension, interfaces,
    sound_accessSuffix]

theorem sound_patternItems : patternItems.Sound Construct.isFilled := by
  simp [patternItems, reference]

theorem sound_arrayElement : arrayElement.Sound Construct.isFilled := by
  simp [arrayElement, reference]

theorem sound_argument : argument.Sound Construct.isFilled := by
  simp [argument]

theorem sound_classReference : classReference.Sound Construct.isFilled := by
  simp [classReference, parenthesized]

theorem sound_grammar (c : Construct) : (grammar c).Sound Construct.isFilled := by
  cases c with
  | statement => exact sound_statement
  | operand => exact sound_operand
  | primary => exact sound_primary
  | classReference => exact sound_classReference
  | _ =>
    simp [grammar, sound_operatorSuffix, sound_parameter, sound_classMember, sound_patternItems,
      sound_arrayElement, sound_argument, Grammar.name, Grammar.insert, typeName, statements,
      parenthesized]

end Grammar

end TranslationAudit.Php
