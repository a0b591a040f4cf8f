import TranslationAudit.Proofs.Catalog.Part
import TranslationAudit.Proofs.Collection.SortedMap
import TranslationAudit.Proofs.Text.NaturalOrder

/-! # One more block in a list

* `Spliced`: a list with a block put in at one place.
* `Spliced.sortNatural`: of sorted lists the longer one has its value more at one place.
* `Part.spliced_written`, `Part.spliced_written_concat`: a key that is new, or new and recorded
  last, is written at one place.
* `Part.written_replace`: another value of a key is written where the first one was.
* `Part.written_without`: without a key all other parts are written as they stood.
-/

namespace TranslationAudit

/-- The second list is the first one with a block put in at one place. -/
def Spliced {α : Type} (block xs ys : List α) : Prop :=
  ∃ front back, xs = front ++ back ∧ ys = front ++ block ++ back

namespace Spliced

variable {α β : Type} {block xs ys : List α}

theorem concat (block xs : List α) : Spliced block xs (xs ++ block) :=
  ⟨xs, [], (List.append_nil xs).symm, (List.append_nil _).symm⟩

theorem append_left (h : Spliced block xs ys) (as : List α) :
    Spliced block (as ++ xs) (as ++ ys) := by
  obtain ⟨front, back, rfl, rfl⟩ := h
  exact ⟨as ++ front, back, by simp, by simp⟩

theorem append_right (h : Spliced block xs ys) (as : List α) :
    Spliced block (xs ++ as) (ys ++ as) := by
  obtain ⟨front, back, rfl, rfl⟩ := h
  exact ⟨front, back ++ as, by simp, by simp⟩

theorem map (h : Spliced block xs ys) (f : α → β) :
    Spliced (block.map f) (xs.map f) (ys.map f) := by
  obtain ⟨front, back, rfl, rfl⟩ := h
  exact ⟨front.map f, back.map f, by simp, by simp⟩

theorem flatMap (h : Spliced block xs ys) (f : α → List β) :
    Spliced (block.flatMap f) (xs.flatMap f) (ys.flatMap f) := by
  obtain ⟨front, back, rfl, rfl⟩ := h
  exact ⟨front.flatMap f, back.flatMap f, by simp, by simp⟩

theorem filter (h : Spliced block xs ys) (p : α → Bool) :
    Spliced (block.filter p) (xs.filter p) (ys.filter p) := by
  obtain ⟨front, back, rfl, rfl⟩ := h
  exact ⟨front.filter p, back.filter p, by simp, by simp⟩

theorem filter_eq (h : Spliced block xs ys) {p : α → Bool} (hblock : ∀ a ∈ block, p a = false) :
    ys.filter p = xs.filter p := by
  obtain ⟨front, back, rfl, rfl⟩ := h
  have hnil : block.filter p = [] := List.filter_eq_nil_iff.2 fun a ha => by simp [hblock a ha]
  simp [hnil]

theorem perm (h : Spliced block xs ys) : ys.Perm (block ++ xs) := by
  obtain ⟨front, back, rfl, rfl⟩ := h
  rw [← List.append_assoc block]
  exact List.perm_append_comm.append_right back

/-- Of sorted lists the longer one has its value more at one place. -/
theorem sortNatural {label : α → String} {a : α} (h : Spliced [a] xs ys)
    (hdistinct : (ys.map label).Nodup) :
    Spliced [a] (Text.sortNatural label xs) (Text.sortNatural label ys) := by
  have hperm := Text.sortNatural_perm label ys
  have hmem : a ∈ Text.sortNatural label ys :=
    hperm.mem_iff.2 (h.perm.mem_iff.2 List.mem_cons_self)
  obtain ⟨front, back, hsorted⟩ := List.append_of_mem hmem
  refine ⟨front, back, ?_, by rw [hsorted, List.append_assoc, List.singleton_append]⟩
  -- what is left is sorted and has the values of the shorter list
  have hleft : (front ++ back).Perm xs := by
    have hall : (a :: (front ++ back)).Perm (a :: xs) := by
      refine List.perm_middle.symm.trans ?_
      rw [← hsorted]
      exact hperm.trans h.perm
    exact hall.cons_inv
  have hsub : (front ++ back).Sublist (Text.sortNatural label ys) := by
    rw [hsorted]
    exact (List.sublist_cons_self a back).append_left front
  have hpairwise := (Text.pairwise_sortNatural label ys).sublist hsub
  have happart : ∀ b ∈ Text.sortNatural label ys, ∀ c ∈ Text.sortNatural label ys,
      label b = label c → b = c :=
    fun b hb c hc => List.inj_on_of_nodup_map ((hperm.map label).nodup_iff.2 hdistinct) hb hc
  have hshorter := Text.sortNatural_perm label xs
  refine List.Perm.eq_of_pairwise ?_ (Text.pairwise_sortNatural label xs) hpairwise
    (hshorter.trans hleft.symm)
  intro b c hb hc hbc hcb
  have hb : b ∈ Text.sortNatural label ys :=
    hsub.subset (hleft.mem_iff.2 (hshorter.mem_iff.1 hb))
  exact happart b hb c (hsub.subset hc) (Text.label_eq_of_labelLE label hbc hcb)

end Spliced

/-- A new key enters a map at one place. -/
theorem SortedMap.spliced_insert {κ ν : Type} [Ord κ] [Std.LawfulEqOrd κ] {m : SortedMap κ ν} {k : κ}
    (h : m.contains k = false) (v : ν) : Spliced [(k, v)] m.entries (m.insert k v).entries := by
  obtain ⟨es⟩ := m
  rw [SortedMap.insert, SortedMap.alter]
  induction es with
  | nil => exact .concat _ _
  | cons e es ih =>
    rw [SortedMap.alterEntries]
    split
    · exact ⟨[], e :: es, rfl, rfl⟩
    · next hc =>
      have he : (compare e.1 k == .eq) = true := by
        rw [Std.LawfulEqOrd.eq_of_compare hc]
        simp
      simp [SortedMap.contains, SortedMap.get?, he] at h
    · next hc =>
      have hne : e.1 ≠ k := fun he => by simp [he] at hc
      have he : (compare e.1 k == .eq) = false := by simpa [beq_eq_false_iff_ne] using hne
      refine (ih ?_).append_left [e]
      simpa [SortedMap.contains, SortedMap.get?, List.find?_cons, he] using h

namespace Catalog.Part

variable {κ ν : Type} [DecidableEq κ] {find find' : κ → Option ν}
variable {sort : List (κ × ν) → List (κ × ν)} {es es' : List (κ × ν)} {cs : List (Part κ Unit)}
variable {k : κ} {v : ν}

/-! ## A new key -/

theorem recorded_congr (h : ∀ j ∈ keys cs, find' j = find j) (skip : Bool) (seen : List κ) :
    recorded skip find' seen cs = recorded skip find seen cs := by
  induction cs generalizing seen with
  | nil => rfl
  | cons c cs ih =>
    cases c with
    | foreign n => rw [recorded, recorded, ih h]
    | keyed j u =>
      rw [recorded, recorded, h j List.mem_cons_self]
      have hrest (seen : List κ) := ih (fun i hi => h i (List.mem_cons_of_mem j hi)) seen
      simp only [hrest]

theorem mem_keys_of_recorded {skip : Bool} {seen : List κ} {j : κ}
    (h : j ∈ (recorded skip find seen cs).2) : j ∈ seen ∨ j ∈ keys cs := by
  induction cs generalizing seen with
  | nil => exact .inl h
  | cons c cs ih =>
    cases c with
    | foreign n => exact ih h
    | keyed i u =>
      rw [recorded] at h
      rw [keys_keyed, List.mem_cons]
      split at h
      · exact (ih h).imp_right .inr
      · rcases ih h with hseen | hkeys
        · rcases List.mem_cons.1 hseen with rfl | hseen
          · exact .inr (.inl rfl)
          · exact .inl hseen
        · exact .inr (.inr hkeys)

/-- A new key that is not recorded is written where it is sorted to. -/
theorem spliced_written (skip : Bool) (hes : Spliced [(k, v)] es es')
    (hfind : ∀ j, j ≠ k → find' j = find j) (hk : k ∉ keys cs)
    (hsort : ∀ xs ys, Spliced [(k, v)] xs ys → ys.Sublist es' →
      Spliced [(k, v)] (sort xs) (sort ys)) :
    Spliced [keyed k v] (written skip find sort es cs) (written skip find' sort es' cs) := by
  have hrecorded : recorded skip find' [] cs = recorded skip find [] cs :=
    recorded_congr (fun j hj => hfind j fun heq => hk (heq ▸ hj)) skip []
  have hunseen : k ∉ (recorded skip find [] cs).2 := fun hm =>
    (mem_keys_of_recorded hm).elim List.not_mem_nil hk
  have hothers := hes.filter fun e => !(recorded skip find [] cs).2.contains e.1
  rw [List.filter_cons_of_pos (by simpa using hunseen), List.filter_nil] at hothers
  rw [written, written, hrecorded]
  exact ((hsort _ _ hothers List.filter_sublist).map _).append_left _

theorem recorded_concat (skip : Bool) (seen : List κ) (c : Part κ Unit) :
    recorded skip find seen (cs ++ [c]) =
      ((recorded skip find seen cs).1 ++ (recorded skip find (recorded skip find seen cs).2 [c]).1,
        (recorded skip find (recorded skip find seen cs).2 [c]).2) := by
  induction cs generalizing seen with
  | nil => rfl
  | cons b cs ih =>
    cases b with
    | foreign n => simp only [List.cons_append, recorded, ih]
    | keyed j u =>
      rw [List.cons_append, recorded, recorded]
      cases (if skip || seen.contains j then none else find j) with
      | none => simp only [ih]
      | some w => simp only [ih, List.cons_append]

/-- A new key that is recorded last is written behind the recorded ones, or where it is sorted to. -/
theorem spliced_written_concat (skip : Bool) (hes : Spliced [(k, v)] es es')
    (hnew : k ∉ es.map Prod.fst) (hfind : ∀ j, j ≠ k → find' j = find j)
    (hvalue : find' k = some v) (hk : k ∉ keys cs)
    (hsort : ∀ xs ys, Spliced [(k, v)] xs ys → ys.Sublist es' →
      Spliced [(k, v)] (sort xs) (sort ys)) :
    Spliced [keyed k v] (written skip find sort es cs)
      (written skip find' sort es' (cs ++ [keyed k ()])) := by
  cases skip with
  | true =>
    have hskip : written true find' sort es' (cs ++ [keyed k ()]) =
        written true find' sort es' cs := by
      rw [written_skip, written_skip, nodes_append, nodes_keyed, nodes_nil, List.append_nil]
    rw [hskip]
    exact spliced_written true hes hfind hk hsort
  | false =>
    have hrecorded : recorded false find' [] cs = recorded false find [] cs :=
      recorded_congr (fun j hj => hfind j fun heq => hk (heq ▸ hj)) false []
    have hunseen : k ∉ (recorded false find [] cs).2 := fun hm =>
      (mem_keys_of_recorded hm).elim List.not_mem_nil hk
    have hlast : recorded false find' (recorded false find [] cs).2 [keyed k ()] =
        ([keyed k v], k :: (recorded false find [] cs).2) := by
      simp [recorded, hunseen, hvalue]
    have hothers : es'.filter (fun e => !(k :: (recorded false find [] cs).2).contains e.1) =
        es.filter fun e => !(recorded false find [] cs).2.contains e.1 := by
      rw [hes.filter_eq (by simp)]
      refine List.filter_congr fun e he => ?_
      have hne : e.1 ≠ k := fun heq => hnew (heq ▸ List.mem_map_of_mem he)
      simp [hne]
    rw [written, written, recorded_concat, hrecorded, hlast]
    dsimp only
    rw [hothers]
    exact (Spliced.concat _ _).append_right _

/-! ## Another value -/

/-- A part with another value if it has a given key. -/
def replace (k : κ) (v : ν) : Part κ ν → Part κ ν := Part.map (fun j w => if j = k then v else w) id

theorem recorded_replace (hfind : ∀ j, find' j = (find j).map fun w => if j = k then v else w)
    (skip : Bool) (seen : List κ) :
    recorded skip find' seen cs =
      ((recorded skip find seen cs).1.map (replace k v), (recorded skip find seen cs).2) := by
  induction cs generalizing seen with
  | nil => rfl
  | cons c cs ih =>
    cases c with
    | foreign n =>
      rw [recorded, recorded, ih]
      rfl
    | keyed j u =>
      rw [recorded, recorded, hfind j]
      cases hseen : skip || seen.contains j with
      | true =>
        simp only [if_true]
        exact ih seen
      | false =>
        cases find j with
        | none => exact ih seen
        | some w =>
          simp only [Bool.false_eq_true, if_false, Option.map_some, ih]
          rfl

/-- Another value of a key is written where the first one was. -/
theorem written_replace (skip : Bool)
    (hfind : ∀ j, find' j = (find j).map fun w => if j = k then v else w)
    (hsort : ∀ xs, sort (xs.map fun e => (e.1, if e.1 = k then v else e.2)) =
      (sort xs).map fun e => (e.1, if e.1 = k then v else e.2)) :
    written skip find' sort (es.map fun e => (e.1, if e.1 = k then v else e.2)) cs =
      (written skip find sort es cs).map (replace k v) := by
  rw [written, written, recorded_replace hfind]
  dsimp only
  rw [List.filter_map, hsort, List.map_append, List.map_map, List.map_map]
  rfl

theorem map_replace_of_not_mem {ps : List (Part κ ν)} (h : k ∉ keys ps) :
    ps.map (replace k v) = ps := by
  refine (List.map_congr_left fun p hp => ?_).trans (List.map_id ps)
  cases p with
  | foreign n => rfl
  | keyed j w =>
    have hne : j ≠ k := fun heq => h (mem_keys.2 ⟨w, heq ▸ hp⟩)
    rw [replace, Part.map, if_neg hne]
    rfl

/-- A part whose key is there once is the only one that changes. -/
theorem exists_map_replace {ps : List (Part κ ν)} (hnodup : (keys ps).Nodup) {w : ν}
    (hp : keyed k w ∈ ps) : ∃ front back,
      ps = front ++ keyed k w :: back ∧ ps.map (replace k v) = front ++ keyed k v :: back := by
  obtain ⟨front, back, rfl⟩ := List.append_of_mem hp
  rw [keys_append, keys_keyed, List.nodup_append, List.nodup_cons] at hnodup
  have hfront : k ∉ keys front := fun hm => hnodup.2.2 k hm k List.mem_cons_self rfl
  refine ⟨front, back, rfl, ?_⟩
  rw [List.map_append, List.map_cons, map_replace_of_not_mem hfront,
    map_replace_of_not_mem hnodup.2.1.1, replace, Part.map, if_pos rfl]

/-! ## A key less -/

/-- Whether a part has a given key. -/
def hasKey (k : κ) : Part κ ν → Bool
  | keyed j _ => j = k
  | foreign _ => false

theorem recorded_without (hfind : ∀ j, j ≠ k → find' j = find j) (skip : Bool)
    (cs : List (Part κ Unit)) {seen seen' : List κ}
    (hseen : ∀ j, j ≠ k → (j ∈ seen' ↔ j ∈ seen)) :
    (recorded skip find' seen' (cs.filter fun c => !hasKey k c)).1 =
        (recorded skip find seen cs).1.filter (fun p => !hasKey k p) ∧
      ∀ j, j ≠ k → (j ∈ (recorded skip find' seen' (cs.filter fun c => !hasKey k c)).2 ↔
        j ∈ (recorded skip find seen cs).2) := by
  induction cs generalizing seen seen' with
  | nil => exact ⟨rfl, hseen⟩
  | cons c cs ih =>
    cases c with
    | foreign n =>
      obtain ⟨hparts, hkeys⟩ := ih hseen
      rw [List.filter_cons_of_pos (by simp [hasKey]), recorded, recorded]
      dsimp only
      rw [List.filter_cons_of_pos (by simp [hasKey]), hparts]
      exact ⟨rfl, hkeys⟩
    | keyed j u =>
      by_cases hj : j = k
      · -- the part is gone here, and if it is written there its key counts as seen there only
        rw [List.filter_cons_of_neg (by simp [hasKey, hj]), recorded]
        split
        · exact ih hseen
        · next v hv =>
          have hmore : ∀ i, i ≠ k → (i ∈ seen' ↔ i ∈ j :: seen) := by
            intro i hi
            have hij : i ≠ j := fun heq => hi (heq.trans hj)
            rw [List.mem_cons, hseen i hi]
            simp [hij]
          obtain ⟨hparts, hkeys⟩ := ih hmore
          dsimp only
          rw [List.filter_cons_of_neg (by simp [hasKey, hj])]
          exact ⟨hparts, hkeys⟩
      · have hcontains : seen'.contains j = seen.contains j := by
          rw [Bool.eq_iff_iff, List.contains_iff_mem, List.contains_iff_mem]
          exact hseen j hj
        rw [List.filter_cons_of_pos (by simp [hasKey, hj]), recorded, recorded, hcontains,
          hfind j hj]
        split
        · exact ih hseen
        · next v hv =>
          have hmore : ∀ i, i ≠ k → (i ∈ j :: seen' ↔ i ∈ j :: seen) := by
            intro i hi
            rw [List.mem_cons, List.mem_cons, hseen i hi]
          obtain ⟨hparts, hkeys⟩ := ih hmore
          dsimp only
          rw [List.filter_cons_of_pos (by simp [hasKey, hj]), hparts]
          exact ⟨rfl, hkeys⟩

/-- Without a key all other parts are written as they stood. -/
theorem written_without (skip : Bool) (hfind : ∀ j, j ≠ k → find' j = find j)
    (hsort : ∀ xs, xs.Sublist es →
      sort (xs.filter fun e => e.1 ≠ k) = (sort xs).filter fun e => e.1 ≠ k) :
    written skip find' sort (es.filter fun e => e.1 ≠ k) (cs.filter fun c => !hasKey k c) =
      (written skip find sort es cs).filter fun p => !hasKey k p := by
  have hnil : ∀ j, j ≠ k → (j ∈ ([] : List κ) ↔ j ∈ ([] : List κ)) := fun _ _ => Iff.rfl
  obtain ⟨hparts, hkeys⟩ := recorded_without hfind skip cs hnil
  have hothers : (es.filter fun e => e.1 ≠ k).filter
      (fun e => !(recorded skip find' [] (cs.filter fun c => !hasKey k c)).2.contains e.1) =
      (es.filter fun e => !(recorded skip find [] cs).2.contains e.1).filter
        fun e => e.1 ≠ k := by
    rw [List.filter_filter, List.filter_filter]
    refine List.filter_congr fun e _ => ?_
    by_cases he : e.1 = k
    · simp [he]
    · simpa [he] using hkeys e.1 he
  rw [written, written]
  dsimp only
  rw [hothers, hsort _ List.filter_sublist, hparts, List.filter_append, List.filter_map]
  simp only [Function.comp_def, hasKey, decide_not]

/-- A part whose key is there once is written more at one place. -/
theorem spliced_filter_hasKey {ps : List (Part κ ν)} (hnodup : (keys ps).Nodup)
    (hp : keyed k v ∈ ps) : Spliced [keyed k v] (ps.filter fun p => !hasKey k p) ps := by
  have hothers {ps : List (Part κ ν)} (h : k ∉ keys ps) :
      ps.filter (fun p => !hasKey k p) = ps := by
    refine List.filter_eq_self.2 fun p hp => ?_
    cases p with
    | foreign n => rfl
    | keyed j w =>
      have hne : j ≠ k := fun heq => h (mem_keys.2 ⟨w, heq ▸ hp⟩)
      simp [hasKey, hne]
  obtain ⟨front, back, rfl⟩ := List.append_of_mem hp
  rw [keys_append, keys_keyed, List.nodup_append, List.nodup_cons] at hnodup
  have hfront : k ∉ keys front := fun hm => hnodup.2.2 k hm k List.mem_cons_self rfl
  refine ⟨front, back, ?_, by simp⟩
  rw [List.filter_append, List.filter_cons_of_neg (by simp [hasKey]), hothers hfront,
    hothers hnodup.2.1.1]

end Catalog.Part

end TranslationAudit
