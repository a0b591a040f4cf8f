import Mathlib.Data.List.Nodup
import TranslationAudit.Collection.SortedMap

/-! # Maps whose entries ascend

* `Ascending`: maps whose entries ascend by key, as those made by insertion do.
* `get?_eq_some_iff`: what is found are the entries.
* `get?_alter_self`: what is found after a change, `get?_foldl_insert`: after several insertions.
* `restrict`, `filterMap`: the entries that a test lets through, and those that a function keeps.
* `eq_of_mem_iff`, `eq_of_get?`, `ascending_congr`: ascending maps and lists are determined by
  their members.
-/

namespace TranslationAudit.SortedMap

variable {κ ν : Type} [Ord κ]

/-- Maps whose entries ascend by key. -/
def Ascending (m : SortedMap κ ν) : Prop :=
  m.entries.Pairwise fun a b => compare a.1 b.1 = .lt

theorem ascending_empty : (empty : SortedMap κ ν).Ascending := List.Pairwise.nil

theorem Ascending.filter {m : SortedMap κ ν} (h : m.Ascending) (p : κ × ν → Bool) :
    (⟨m.entries.filter p⟩ : SortedMap κ ν).Ascending :=
  List.Pairwise.sublist List.filter_sublist h

/-- The entries whose keys a test lets through. -/
def restrict (m : SortedMap κ ν) (p : κ → Bool) : SortedMap κ ν :=
  ⟨m.entries.filter fun e => p e.1⟩

theorem Ascending.restrict {m : SortedMap κ ν} (h : m.Ascending) (p : κ → Bool) :
    (m.restrict p).Ascending := h.filter _

/-- The entries that a function keeps, with the values it gives them. -/
def filterMap {μ : Type} (m : SortedMap κ ν) (f : κ → ν → Option μ) : SortedMap κ μ :=
  ⟨m.entries.filterMap fun e => (f e.1 e.2).map (Prod.mk e.1)⟩

omit [Ord κ] in
theorem mem_filterMap {μ : Type} {m : SortedMap κ ν} {f : κ → ν → Option μ} {k : κ} {w : μ} :
    (k, w) ∈ (m.filterMap f).entries ↔ ∃ v, (k, v) ∈ m.entries ∧ f k v = some w := by
  rw [filterMap, List.mem_filterMap]
  constructor
  · rintro ⟨⟨j, v⟩, hv, heq⟩
    obtain ⟨u, hu, heq⟩ := Option.map_eq_some_iff.1 heq
    cases heq
    exact ⟨v, hv, hu⟩
  · rintro ⟨v, hv, hw⟩
    exact ⟨(k, v), hv, by rw [hw]; rfl⟩

theorem Ascending.filterMap {μ : Type} {m : SortedMap κ ν} (h : m.Ascending)
    (f : κ → ν → Option μ) : (m.filterMap f).Ascending := by
  refine List.Pairwise.filterMap _ ?_ h
  intro a b hab x hx y hy
  obtain ⟨v, -, rfl⟩ := Option.map_eq_some_iff.1 hx
  obtain ⟨w, -, rfl⟩ := Option.map_eq_some_iff.1 hy
  exact hab

section Lawful

variable [Std.TransOrd κ] [Std.LawfulEqOrd κ]

omit [Std.TransOrd κ] in
theorem ne_of_lt {j k : κ} (h : compare j k = .lt) : j ≠ k := by
  rintro rfl
  have heq : compare j j = .eq := Std.ReflCmp.compare_self
  rw [heq] at h
  cases h

omit [Std.TransOrd κ] in
theorem Ascending.nodup_keys {m : SortedMap κ ν} (h : m.Ascending) : m.keys.Nodup := by
  rw [keys, List.Nodup, List.pairwise_map]
  exact List.Pairwise.imp ne_of_lt h

theorem get?_eq_some_iff {m : SortedMap κ ν} (h : m.Ascending) {k : κ} {v : ν} :
    m.get? k = some v ↔ (k, v) ∈ m.entries := by
  obtain ⟨es⟩ := m
  rw [Ascending] at h
  rw [get?]
  induction es with
  | nil => simp
  | cons e es ih =>
    obtain ⟨j, w⟩ := e
    rw [List.pairwise_cons] at h
    rw [List.find?_cons]
    cases hc : compare j k with
    | eq =>
      obtain rfl : j = k := Std.LawfulEqOrd.eq_of_compare hc
      have hfresh : (j, v) ∉ es := fun hm => ne_of_lt (h.1 (j, v) hm) rfl
      simp [hfresh, eq_comm]
    | lt =>
      have hne : k ≠ j := (ne_of_lt hc).symm
      simpa [hne] using ih h.2
    | gt =>
      have hne : k ≠ j := ne_of_lt (Std.OrientedCmp.lt_of_gt hc)
      simpa [hne] using ih h.2

omit [Std.TransOrd κ] in
theorem key_mem_alterEntries {k : κ} {f : Option ν → ν} {es : List (κ × ν)} {e : κ × ν}
    (h : e ∈ alterEntries k f es) : e.1 = k ∨ e ∈ es := by
  induction es with
  | nil =>
    rw [alterEntries, List.mem_singleton] at h
    exact .inl (h ▸ rfl)
  | cons a es ih =>
    rw [alterEntries] at h
    split at h
    · rcases List.mem_cons.1 h with rfl | h
      · exact .inl rfl
      · exact .inr h
    · next hc =>
      rcases List.mem_cons.1 h with rfl | h
      · exact .inl (Std.LawfulEqOrd.eq_of_compare hc).symm
      · exact .inr (List.mem_cons_of_mem a h)
    · rcases List.mem_cons.1 h with rfl | h
      · exact .inr List.mem_cons_self
      · rcases ih h with h | h
        · exact .inl h
        · exact .inr (List.mem_cons_of_mem a h)

theorem Ascending.alter {m : SortedMap κ ν} (h : m.Ascending) (k : κ) (f : Option ν → ν) :
    (m.alter k f).Ascending := by
  obtain ⟨es⟩ := m
  rw [Ascending] at h
  rw [SortedMap.alter, Ascending]
  induction es with
  | nil => exact List.pairwise_singleton _ _
  | cons e es ih =>
    rw [List.pairwise_cons] at h
    rw [alterEntries]
    split
    · next hc =>
      refine List.pairwise_cons.2 ⟨?_, List.pairwise_cons.2 h⟩
      intro a ha
      rcases List.mem_cons.1 ha with rfl | ha
      · exact hc
      · exact Std.TransCmp.lt_trans hc (h.1 a ha)
    · exact List.pairwise_cons.2 h
    · next hc =>
      refine List.pairwise_cons.2 ⟨?_, ih h.2⟩
      intro a ha
      rcases key_mem_alterEntries ha with hk | ha
      · rw [hk]
        exact Std.OrientedCmp.lt_of_gt hc
      · exact h.1 a ha

theorem Ascending.insert {m : SortedMap κ ν} (h : m.Ascending) (k : κ) (v : ν) :
    (m.insert k v).Ascending := h.alter k _

omit [Std.TransOrd κ] in
theorem get?_insert [DecidableEq κ] (m : SortedMap κ ν) (k j : κ) (v : ν) :
    (m.insert k v).get? j = if j = k then some v else m.get? j := by
  by_cases hj : j = k
  · rw [if_pos hj, hj, get?_insert_self]
  · rw [if_neg hj, insert, get?_alter_ne m hj]

omit [Std.TransOrd κ] in
/-- Of several pairs with one key the last is found. -/
theorem get?_foldl_insert [DecidableEq κ] (pairs : List (κ × ν)) (m : SortedMap κ ν) (k : κ) :
    (pairs.foldl (fun m e => m.insert e.1 e.2) m).get? k =
      ((pairs.filter fun e => e.1 = k).getLast?.map Prod.snd).or (m.get? k) := by
  induction pairs generalizing m with
  | nil => rfl
  | cons e pairs ih =>
    rw [List.foldl_cons, ih, get?_insert, List.filter_cons]
    by_cases hk : e.1 = k
    · cases hlast : (pairs.filter fun e => e.1 = k).getLast? <;>
        simp [hk, List.getLast?_cons, hlast]
    · have hne : k ≠ e.1 := Ne.symm hk
      simp [hk, hne]

theorem mem_entries_insert [DecidableEq κ] {m : SortedMap κ ν} (h : m.Ascending) {k j : κ}
    {v w : ν} :
    (j, w) ∈ (m.insert k v).entries ↔ if j = k then w = v else (j, w) ∈ m.entries := by
  rw [← get?_eq_some_iff (h.insert k v), get?_insert]
  split
  · simp [eq_comm]
  · exact get?_eq_some_iff h

/-- Before the first entry nothing is found. -/
theorem find?_eq_none_of_lt {k : κ} {e : κ × ν} {es : List (κ × ν)}
    (h : (e :: es).Pairwise fun a b => compare a.1 b.1 = .lt) (hc : compare k e.1 = .lt) :
    ((e :: es).find? fun a => compare a.1 k == .eq) = none := by
  have hall : ∀ a ∈ e :: es, compare k a.1 = .lt := by
    intro a ha
    rcases List.mem_cons.1 ha with rfl | ha
    · exact hc
    · exact Std.TransCmp.lt_trans hc (List.rel_of_pairwise_cons h ha)
  rw [List.find?_eq_none]
  intro a ha heq
  have hsame : a.1 = k := by
    apply Std.LawfulEqOrd.eq_of_compare
    simpa using heq
  exact ne_of_lt (hall a ha) hsame.symm

/-- A change sets what is found for its key. -/
theorem get?_alter_self {m : SortedMap κ ν} (h : m.Ascending) (k : κ) (f : Option ν → ν) :
    (m.alter k f).get? k = some (f (m.get? k)) := by
  obtain ⟨es⟩ := m
  rw [Ascending] at h
  rw [get?, get?, alter]
  have hk : (compare k k == .eq) = true := by simp
  induction es with
  | nil => simp [alterEntries]
  | cons e es ih =>
    rw [alterEntries]
    cases hc : compare k e.1 with
    | lt =>
      rw [find?_eq_none_of_lt h hc, List.find?_cons, hk]
      rfl
    | eq =>
      have he : k = e.1 := Std.LawfulEqOrd.eq_of_compare hc
      have hb : (compare e.1 k == .eq) = true := he ▸ hk
      rw [List.find?_cons, List.find?_cons, hb]
      rfl
    | gt =>
      have he : e.1 ≠ k := fun he => by simp [he] at hc
      have hb : (compare e.1 k == .eq) = false := by simpa [beq_eq_false_iff_ne] using he
      rw [List.find?_cons, List.find?_cons, hb]
      exact ih h.tail

omit [Ord κ] [Std.TransOrd κ] [Std.LawfulEqOrd κ] in
theorem sum_one (m : SortedMap κ ν) : (m.sum fun _ => 1) = m.size := by
  obtain ⟨es⟩ := m
  rw [sum, size]
  induction es with
  | nil => rfl
  | cons e es ih =>
    rw [List.foldr_cons, List.length_cons]
    dsimp only at ih
    omega

/-- A change replaces what one value adds to a sum over all. -/
theorem sum_alter {m : SortedMap κ ν} (h : m.Ascending) (k : κ) (f : Option ν → ν)
    (weight : ν → Nat) :
    (m.alter k f).sum weight + ((m.get? k).map weight).getD 0 =
      m.sum weight + weight (f (m.get? k)) := by
  obtain ⟨es⟩ := m
  rw [Ascending] at h
  rw [get?, alter, sum, sum]
  induction es with
  | nil => simp [alterEntries]
  | cons e es ih =>
    rw [alterEntries]
    cases hc : compare k e.1 with
    | lt =>
      rw [find?_eq_none_of_lt h hc]
      simp only [List.foldr_cons, Option.map_none, Option.getD_none]
      omega
    | eq =>
      have he : k = e.1 := Std.LawfulEqOrd.eq_of_compare hc
      have hb : (compare e.1 k == .eq) = true := he ▸ by simp
      rw [List.find?_cons, hb]
      simp only [List.foldr_cons, Option.map_some, Option.getD_some]
      omega
    | gt =>
      have he : e.1 ≠ k := fun he => by simp [he] at hc
      have hb : (compare e.1 k == .eq) = false := by simpa [beq_eq_false_iff_ne] using he
      have htail := ih h.tail
      dsimp only at htail
      rw [List.find?_cons, hb]
      simp only [List.foldr_cons]
      omega

omit [Std.TransOrd κ] [Std.LawfulEqOrd κ] in
theorem contains_of_get? {m : SortedMap κ ν} {k : κ} {v : ν} (h : m.get? k = some v) :
    m.contains k = true := by
  rw [contains, h]
  rfl

omit [Std.TransOrd κ] in
theorem mem_of_get? {m : SortedMap κ ν} {k : κ} {v : ν} (h : m.get? k = some v) :
    (k, v) ∈ m.entries := by
  obtain ⟨⟨j, w⟩, he, rfl⟩ := Option.map_eq_some_iff.1 h
  have hmem := List.mem_of_find?_eq_some he
  have hcompare := List.find?_some he
  have hkey : j = k := by
    apply Std.LawfulEqOrd.eq_of_compare
    simpa using hcompare
  exact hkey ▸ hmem

theorem get?_filterMap {μ : Type} {m : SortedMap κ ν} (h : m.Ascending) (f : κ → ν → Option μ)
    (k : κ) : (m.filterMap f).get? k = (m.get? k).bind (f k) := by
  apply Option.ext
  intro w
  rw [get?_eq_some_iff (h.filterMap f), mem_filterMap, Option.bind_eq_some_iff]
  simp only [get?_eq_some_iff h]

theorem get?_restrict {m : SortedMap κ ν} (h : m.Ascending) (p : κ → Bool) (k : κ) :
    (m.restrict p).get? k = if p k then m.get? k else none := by
  apply Option.ext
  intro v
  rw [get?_eq_some_iff (h.restrict p), restrict, List.mem_filter]
  cases p k with
  | true => simp [get?_eq_some_iff h]
  | false => simp

theorem get?_filter_ne [DecidableEq κ] {m : SortedMap κ ν} (h : m.Ascending) (k j : κ) :
    (⟨m.entries.filter fun e => e.1 ≠ k⟩ : SortedMap κ ν).get? j =
      if j = k then none else m.get? j := by
  have hget := get?_restrict h (fun i => decide (i ≠ k)) j
  by_cases hj : j = k
  · simpa [restrict, hj] using hget
  · simpa [restrict, hj] using hget

/-- Ascending maps with the same entries are equal. -/
theorem eq_of_mem_iff {m n : SortedMap κ ν} (hm : m.Ascending) (hn : n.Ascending)
    (h : ∀ e, e ∈ m.entries ↔ e ∈ n.entries) : m = n := by
  have hperm : m.entries.Perm n.entries :=
    (List.perm_ext_iff_of_nodup (List.Nodup.of_map Prod.fst hm.nodup_keys)
      (List.Nodup.of_map Prod.fst hn.nodup_keys)).2 h
  have heq : m.entries = n.entries := by
    refine List.Perm.eq_of_pairwise ?_ hm hn hperm
    intro a b _ _ hab hba
    rw [Std.OrientedOrd.eq_swap (a := b.1), hab] at hba
    cases hba
  cases m
  cases n
  cases heq
  rfl

/-- Ascending maps in which the same is found are equal. -/
theorem eq_of_get? {m n : SortedMap κ ν} (hm : m.Ascending) (hn : n.Ascending)
    (h : ∀ k, m.get? k = n.get? k) : m = n := by
  apply eq_of_mem_iff hm hn
  rintro ⟨k, v⟩
  rw [← get?_eq_some_iff hm, ← get?_eq_some_iff hn, h]

theorem restrict_alter_inside {m : SortedMap κ ν} (h : m.Ascending) {p : κ → Bool} {k : κ}
    (hk : p k = true) (f : Option ν → ν) :
    (m.alter k f).restrict p = (m.restrict p).alter k f := by
  have hr := h.restrict p
  apply eq_of_get? ((h.alter k f).restrict p) (hr.alter k f)
  intro j
  rw [get?_restrict (h.alter k f)]
  by_cases hj : j = k
  · subst hj
    simp [get?_alter_self h, get?_alter_self hr, get?_restrict h, hk]
  · simp [get?_alter_ne _ hj, get?_restrict h]

theorem restrict_alter_outside {m : SortedMap κ ν} (h : m.Ascending) {p : κ → Bool} {k : κ}
    (hk : p k = false) (f : Option ν → ν) : (m.alter k f).restrict p = m.restrict p := by
  apply eq_of_get? ((h.alter k f).restrict p) (h.restrict p)
  intro j
  rw [get?_restrict (h.alter k f), get?_restrict h]
  by_cases hj : j = k
  · simp [hj, hk]
  · rw [get?_alter_ne m hj]

end Lawful

end TranslationAudit.SortedMap

namespace TranslationAudit

/-! ## Ascending lists -/

section AscendingLists

variable {α : Type} [Ord α] [Std.TransOrd α] [Std.LawfulEqOrd α]

omit [Std.TransOrd α] in
theorem mem_insertAscending {x y : α} {xs : List α} :
    y ∈ insertAscending x xs ↔ y = x ∨ y ∈ xs := by
  induction xs with
  | nil => simp [insertAscending]
  | cons z xs ih =>
    rw [insertAscending]
    cases hc : compare x z with
    | lt => simp
    | eq =>
      have hxz : x = z := Std.LawfulEqOrd.eq_of_compare hc
      simp [hxz]
    | gt => simp [ih, or_left_comm]

theorem pairwise_insertAscending {x : α} {xs : List α}
    (h : xs.Pairwise fun a b => compare a b = .lt) :
    (insertAscending x xs).Pairwise fun a b => compare a b = .lt := by
  induction xs with
  | nil => exact List.pairwise_singleton _ _
  | cons z xs ih =>
    rw [List.pairwise_cons] at h
    rw [insertAscending]
    cases hc : compare x z with
    | lt =>
      refine List.pairwise_cons.2 ⟨?_, List.pairwise_cons.2 h⟩
      intro a ha
      rcases List.mem_cons.1 ha with rfl | ha
      · exact hc
      · exact Std.TransCmp.lt_trans hc (h.1 a ha)
    | eq => exact List.pairwise_cons.2 h
    | gt =>
      refine List.pairwise_cons.2 ⟨?_, ih h.2⟩
      intro a ha
      rcases mem_insertAscending.1 ha with rfl | ha
      · exact Std.OrientedCmp.lt_of_gt hc
      · exact h.1 a ha

omit [Std.TransOrd α] in
theorem mem_ascending {y : α} {xs : List α} : y ∈ ascending xs ↔ y ∈ xs := by
  have hfold (xs s : List α) :
      y ∈ xs.foldl (fun s x => insertAscending x s) s ↔ y ∈ s ∨ y ∈ xs := by
    induction xs generalizing s with
    | nil => simp
    | cons x xs ih =>
      rw [List.foldl_cons, ih, mem_insertAscending, List.mem_cons]
      constructor
      · rintro ((h | h) | h) <;> simp [h]
      · rintro (h | h | h) <;> simp [h]
  rw [ascending, hfold]
  simp

theorem pairwise_ascending (xs : List α) :
    (ascending xs).Pairwise fun a b => compare a b = .lt := by
  rw [ascending]
  refine List.foldlRecOn (motive := fun s : List α => s.Pairwise fun a b => compare a b = .lt)
    xs _ List.Pairwise.nil ?_
  intro s hs x _
  exact pairwise_insertAscending hs

/-- Lists with the same members have the same members in ascending order. -/
theorem ascending_congr {xs ys : List α} (h : ∀ a, a ∈ xs ↔ a ∈ ys) :
    ascending xs = ascending ys := by
  have hnodup (zs : List α) : (ascending zs).Nodup := by
    refine List.Pairwise.imp ?_ (pairwise_ascending zs)
    intro a b hab
    exact SortedMap.ne_of_lt hab
  have hperm : (ascending xs).Perm (ascending ys) := by
    rw [List.perm_ext_iff_of_nodup (hnodup xs) (hnodup ys)]
    intro a
    rw [mem_ascending, mem_ascending]
    exact h a
  refine hperm.eq_of_pairwise ?_ (pairwise_ascending xs) (pairwise_ascending ys)
  intro a b _ _ hab hba
  rw [Std.OrientedOrd.eq_swap (a := b), hab] at hba
  cases hba

end AscendingLists

end TranslationAudit
