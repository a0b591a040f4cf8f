import TranslationAudit.Proofs.Path.Parent

/-! # Segments of absolute paths

* `Path.spell`: the text of the absolute path with given segments.
* `Path.segments`: the segments of a path; `Path.toList_eq_spell` spells the path by them.
* `Path.split_spell`: the segments of a spelled path are those that it was spelled with.
* `Path.exists_toList_join`, `Path.IsOpen.toList_join`: the segments of a path that goes on from
  another.
-/

namespace TranslationAudit.Path

/-- The text of the absolute path with given segments. -/
def spell (segments : List (List Char)) : List Char := segments.flatMap ('/' :: ·)

/-- The segments of an absolute path. A slash at the end is followed by an empty one. -/
def segments (p : String) : List (List Char) := (Text.split (· = '/') p.toList).tail

@[simp] theorem spell_nil : spell [] = [] := rfl

@[simp] theorem spell_cons (s : List Char) (rest : List (List Char)) :
    spell (s :: rest) = '/' :: (s ++ spell rest) := rfl

@[simp] theorem spell_append (front rest : List (List Char)) :
    spell (front ++ rest) = spell front ++ spell rest :=
  List.flatMap_append

theorem spell_split (s : List Char) : spell (Text.split (· = '/') s) = '/' :: s := by
  induction s with
  | nil => rfl
  | cons c s ih =>
    rw [Text.split]
    split
    · next hc => rw [spell_cons, ih, of_decide_eq_true hc, List.nil_append]
    · obtain ⟨piece, rest, hsplit⟩ := List.exists_cons_of_ne_nil (Text.split_ne_nil (· = '/') s)
      rw [hsplit, spell_cons, List.cons.injEq] at ih
      rw [hsplit]
      simp [ih.2]

theorem split_spell {segments : List (List Char)} (h : ∀ s ∈ segments, '/' ∉ s) :
    Text.split (· = '/') (spell segments) = [] :: segments := by
  induction segments with
  | nil => rfl
  | cons s rest ih =>
    have hs : ∀ c ∈ s, decide (c = '/') = false := by
      intro c hc
      have hne : c ≠ '/' := fun heq => h s List.mem_cons_self (heq ▸ hc)
      simpa using hne
    have hsplit := Text.split_append hs (ih fun t ht => h t (List.mem_cons_of_mem s ht))
    rw [spell_cons, Text.split, if_pos (by simp), hsplit, List.append_nil]

theorem slash_not_mem_of_mem_split {s piece : List Char}
    (h : piece ∈ Text.split (· = '/') s) : '/' ∉ piece := by
  intro hslash
  simpa using Text.split_free h '/' hslash

theorem split_of_spell {s : List Char} {segments : List (List Char)}
    (h : ∀ s ∈ segments, '/' ∉ s) (hs : '/' :: s = spell segments) :
    Text.split (· = '/') s = segments := by
  have hsplit := split_spell h
  rw [← hs, Text.split, if_pos (by simp), List.cons.injEq] at hsplit
  exact hsplit.2

theorem split_of_slash_not_mem {s : List Char} (h : '/' ∉ s) : Text.split (· = '/') s = [s] := by
  exact split_of_spell (by simpa using h) (by simp)

theorem toList_eq_spell {p : String} (h : isAbsolute p = true) : p.toList = spell (segments p) := by
  obtain ⟨rest, hp⟩ : ∃ rest, p.toList = '/' :: rest := by
    simpa [isAbsolute, List.head?_eq_some_iff] using h
  rw [segments, hp, Text.split, if_pos (by simp), List.tail_cons, spell_split]

theorem slash_not_mem_of_mem_segments {p : String} {s : List Char} (h : s ∈ segments p) :
    '/' ∉ s :=
  slash_not_mem_of_mem_split (List.mem_of_mem_tail h)

theorem withSlashes_eq_self {p : String} (h : '\\' ∉ p.toList) : withSlashes p = p := by
  have hmap : p.toList.map (fun c => if c = '\\' then '/' else c) = p.toList := by
    refine (List.map_congr_left fun c hc => ?_).trans (List.map_id _)
    have hne : c ≠ '\\' := fun heq => h (heq ▸ hc)
    simp [hne]
  rw [withSlashes, hmap, String.ofList_toList]

/-! ## Going on from a path -/

theorem mem_join {a b : String} {c : Char} (h : c ∈ (join a b).toList) :
    c ∈ a.toList ∨ c ∈ b.toList ∨ c = '/' := by
  rw [join] at h
  split at h
  · exact .inr (.inl h)
  · split at h
    · rw [String.toList_append, List.mem_append] at h
      exact h.imp_right .inl
    · simp only [String.toList_append, List.mem_append] at h
      rcases h with (h | h) | h
      · exact .inl h
      · exact .inr (.inr (by simpa using h))
      · exact .inr (.inl h)

theorem not_mem_join {a b : String} {c : Char} (hslash : c ≠ '/') (ha : c ∉ a.toList)
    (hb : c ∉ b.toList) : c ∉ (join a b).toList := by
  intro hmem
  rcases mem_join hmem with h | h | h
  · exact ha h
  · exact hb h
  · exact hslash h

theorem IsOpen.toList_join {p q : String} (h : IsOpen p) (hq : isAbsolute q = false)
    {segments : List (List Char)} (hp : p.toList = spell segments) :
    (Path.join p q).toList = spell (segments ++ Text.split (· = '/') q.toList) := by
  rw [h.join hq, spell_append, spell_split, ← hp]
  simp

/-- A path goes on from the segments of its base, but for an empty one at the end. -/
theorem exists_toList_join {base q : String} (hbase : isAbsolute base = true)
    (hq : isAbsolute q = false) :
    ∃ front, front <+: segments base ∧
      (join base q).toList = spell (front ++ Text.split (· = '/') q.toList) := by
  have hspell := toList_eq_spell hbase
  by_cases hlast : base.toList.getLast? = some '/'
  · obtain ⟨front, hfront⟩ := List.getLast?_eq_some_iff.1 hlast
    have hjoin : (join base q).toList = front ++ '/' :: q.toList := by
      rw [join, hq, if_neg (by simpa using fun heq => by simp [heq] at hlast), if_pos hlast,
        String.toList_append, hfront, List.append_assoc, List.singleton_append]
    have hsegments : segments base = (Text.split (· = '/') front).tail ++ [[]] := by
      rw [segments, hfront, Text.split_append_cons (by simp),
        List.tail_append_of_ne_nil (Text.split_ne_nil _ _)]
      rfl
    refine ⟨(Text.split (· = '/') front).tail, hsegments ▸ List.prefix_append _ _, ?_⟩
    have hfront : front = spell (Text.split (· = '/') front).tail := by
      rw [hsegments, hfront, spell_append] at hspell
      exact List.append_cancel_right hspell
    rw [hjoin, spell_append, spell_split, ← hfront]
  · have hopen : IsOpen base := by
      have hne : base.toList ≠ [] := by
        intro hempty
        simp [isAbsolute, hempty] at hbase
      refine ⟨_, List.getLast?_eq_some_getLast hne, ?_⟩
      rwa [List.getLast?_eq_some_getLast hne, Option.some.injEq] at hlast
    exact ⟨segments base, List.prefix_rfl, hopen.toList_join hq hspell⟩

end TranslationAudit.Path
