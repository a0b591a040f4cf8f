import TranslationAudit.Collect.Php
import TranslationAudit.Proofs.Collect.Php.Reading

/-! # The order of calls in PHP files

* `Php.pairwise_tokens`: the tokens of a file stand one after the other.
* `Php.Tree.Solid.follows`: so do the calls of solid trees, an outer call where its object begins.
* `Php.pairwise_program`: so do the calls of a program.
-/

namespace TranslationAudit.Php

open TranslationAudit.Php.Tree

variable {source : Array Char} {t : Tree} {ts : List Tree} {c : Call}

/-! ## Tokens -/

/-- Tokens that begin one after the other, from an offset on. -/
structure Ascending (offset : Nat) (ts : List Token) : Prop where
  le : ∀ t ∈ ts, offset ≤ t.start
  pairwise : ts.Pairwise fun a b => a.start ≤ b.start

theorem ascending_cut_append {offset : Nat} {later : List Token}
    (pieces : List (TokenKind × Nat)) (s : List Char)
    (h : Ascending (offset + pieces.foldr (fun t n => t.2 + n) 0) later) :
    Ascending offset (cut pieces offset s ++ later) := by
  induction pieces generalizing offset s with
  | nil => exact h
  | cons piece pieces ih =>
    rw [List.foldr_cons, ← Nat.add_assoc] at h
    have hrest := ih (s.drop piece.2) h
    refine ⟨List.forall_mem_cons.2 ⟨Nat.le_refl _, fun t ht => ?_⟩,
      List.pairwise_cons.2 ⟨fun t ht => ?_, hrest.pairwise⟩⟩
    · exact Nat.le_trans (Nat.le_add_right _ _) (hrest.le t ht)
    · exact Nat.le_trans (Nat.le_add_right _ _) (hrest.le t ht)

theorem Ascending.of_le {offset start : Nat} {ts : List Token} (h : Ascending start ts)
    (hle : offset ≤ start) : Ascending offset ts :=
  ⟨fun t ht => Nat.le_trans hle (h.le t ht), h.pairwise⟩

theorem ascending_scan {fuel offset : Nat} {modes : List Mode} {s : List Char} {ts : List Token}
    (h : scan fuel modes offset s = some ts) : Ascending offset ts := by
  induction fuel generalizing offset modes s ts with
  | zero =>
    rw [scan] at h
    split at h
    · cases h
      exact ⟨nofun, .nil⟩
    · cases h
  | succ fuel ih =>
    rw [scan] at h
    split at h
    · split at h
      · cases h
        exact ⟨nofun, .nil⟩
      · cases h
    · split at h
      · cases h
      · exact (ih h).of_le (Nat.le_add_right _ _)
      · next pieces modes' hstep =>
        obtain ⟨later, hlater, rfl⟩ := Option.map_eq_some_iff.1 h
        exact ascending_cut_append pieces s (ih hlater)

theorem pairwise_tokens {s : List Char} {ts : List Token} (h : tokens s = some ts) :
    ts.Pairwise fun a b => a.start ≤ b.start := (ascending_scan h).pairwise

/-! ## Calls -/

/-- Calls that stand among tokens, and in the order in which the tokens are. -/
structure Follows (calls : List Call) (ts : List Token) : Prop where
  place : ∀ c ∈ calls, ∃ t ∈ ts, t.start = c.start
  pairwise : ts.Pairwise (fun a b => a.start ≤ b.start) →
    calls.Pairwise fun a b => a.start ≤ b.start

theorem Follows.append {cs cs' : List Call} {ls ls' : List Token} (h : Follows cs ls)
    (h' : Follows cs' ls') : Follows (cs ++ cs') (ls ++ ls') := by
  refine ⟨fun c hc => ?_, fun hls => ?_⟩
  · obtain hc | hc := List.mem_append.1 hc
    · obtain ⟨t, ht, hstart⟩ := h.place c hc
      exact ⟨t, List.mem_append_left _ ht, hstart⟩
    · obtain ⟨t, ht, hstart⟩ := h'.place c hc
      exact ⟨t, List.mem_append_right _ ht, hstart⟩
  · rw [List.pairwise_append] at hls ⊢
    refine ⟨h.pairwise hls.1, h'.pairwise hls.2.1, fun c hc c' hc' => ?_⟩
    obtain ⟨t, ht, hstart⟩ := h.place c hc
    obtain ⟨t', ht', hstart'⟩ := h'.place c' hc'
    rw [← hstart, ← hstart']
    exact hls.2.2 t ht t' ht'

/-- A call at the first of the tokens stands before the others. -/
theorem Follows.cons {cs : List Call} {first : Token} {rest : List Token}
    (h : Follows cs (first :: rest)) (hc : c.start = first.start) :
    Follows (c :: cs) (first :: rest) := by
  refine ⟨List.forall_mem_cons.2 ⟨⟨first, List.mem_cons_self, hc.symm⟩, h.place⟩, fun hls => ?_⟩
  refine List.pairwise_cons.2 ⟨fun c' hc' => ?_, h.pairwise hls⟩
  obtain ⟨t, ht, hstart⟩ := h.place c' hc'
  rw [hc, ← hstart]
  obtain rfl | ht := List.mem_cons.1 ht
  · exact Nat.le_refl _
  · exact (List.pairwise_cons.1 hls).1 t ht

theorem follows_callsOf (h : ∀ t ∈ ts, Follows (t.calls source) t.leaves) :
    Follows (callsOf source ts) (leavesOf ts) := by
  induction ts with
  | nil => exact ⟨nofun, fun _ => .nil⟩
  | cons t ts ih =>
    rw [List.forall_mem_cons] at h
    exact h.1.append (ih h.2)

/-- A call has a shape and begins where its object does. -/
theorem exists_of_call? {kind : PartKind} (h : call? source kind ts = some c) :
    ∃ object rest name shape, ts = object :: rest ∧ c.start = object.start ∧
      callShape? source kind object name = some shape := by
  unfold call? at h
  split at h
  · next object _ rest =>
    split at h
    · cases h
    · split at h
      · cases h
      · obtain ⟨shape, hshape, rfl⟩ := Option.map_eq_some_iff.1 h
        obtain ⟨name, -, hname⟩ := Option.bind_eq_some_iff.1 hshape
        exact ⟨object, _, name, shape, rfl, rfl, hname⟩
  · cases h

theorem Tree.Solid.exists_head (h : t.Solid) :
    ∃ first rest, t.leaves = first :: rest ∧ t.start = first.start := by
  obtain ⟨first, rest, hleaves⟩ := List.exists_cons_of_ne_nil h.leaves_ne_nil
  exact ⟨first, rest, hleaves, by rw [start, hleaves]; rfl⟩

theorem Tree.Solid.follows (h : t.Solid) : Follows (t.calls source) t.leaves := by
  induction h with
  | leaf t => exact ⟨nofun, fun _ => .nil⟩
  | @node kind xs hleaves hsolid ih =>
    have hinner : Follows (callsOf source xs) (leavesOf xs) := follows_callsOf ih
    rw [Tree.calls, leaves]
    cases hcall : call? source kind xs with
    | none => exact hinner
    | some c =>
      obtain ⟨object, others, name, shape, rfl, hstart, -⟩ := exists_of_call? hcall
      obtain ⟨first, rest, hobject, hfirst⟩ := (hsolid object List.mem_cons_self).exists_head
      rw [leavesOf, hobject, List.cons_append] at hinner ⊢
      exact hinner.cons (hstart.trans hfirst)

/-! ## Programs -/

theorem call?_other : call? source .other ts = none := by
  refine Option.eq_none_iff_forall_ne_some.2 fun c h => ?_
  obtain ⟨object, rest, name, shape, -, -, hshape⟩ := exists_of_call? h
  cases hshape

/-- The calls of a program stand one after the other. -/
theorem pairwise_program {tokens : List Token} {program : Tree}
    (htokens : tokens.Pairwise fun a b => a.start ≤ b.start)
    (h : program? tokens = some program) :
    (program.calls source).Pairwise fun a b => a.start ≤ b.start := by
  unfold program? at h
  split at h
  · cases h
  · next trees rest hrun =>
    split at h
    · cases h
      have hstatements : (Grammar.statements []).Sound Construct.isFilled := ⟨trivial, trivial⟩
      have hreads := Rule.reads_run sound_grammar consumes_grammar
      have hread := (hreads _).reading _ hstatements _ _ _ hrun
      have hleaves : (leavesOf trees).Pairwise fun a b => a.start ≤ b.start :=
        htokens.sublist ((List.sublist_append_left _ _).trans hread.sublist)
      rw [Tree.calls, call?_other]
      exact (follows_callsOf fun t ht => (hread.solid t ht).follows).pairwise hleaves
    · cases h

end TranslationAudit.Php
