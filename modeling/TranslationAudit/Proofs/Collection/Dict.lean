import Mathlib.Data.List.Basic
import Mathlib.Data.List.Induction
import TranslationAudit.Collection.Dict

/-! # Dictionaries with one entry for each key

* `Distinct`: dictionaries that have each key once, as those made by insertion do.
* `get?_eq_some_iff`: what is found are the entries.
* `entries_insert_new`, `entries_insert_known`: a new key is put behind the others, and a known one
  keeps its place.
* `keys_foldl_insert`: keys stand in the order in which they first came.
* `keys_ofList`, `get?_ofList`: a key keeps the place of its first pair, and of several pairs with
  one key the last counts.
* `mem_entries_groupBy`: a group are the values of its key.
-/

namespace TranslationAudit.Dict

variable {κ ν : Type} [DecidableEq κ]

omit [DecidableEq κ] in
/-- Dictionaries that have each key once. -/
def Distinct (d : Dict κ ν) : Prop := d.keys.Nodup

omit [DecidableEq κ] in
theorem distinct_empty : (empty : Dict κ ν).Distinct := List.nodup_nil

theorem contains_of_get? {d : Dict κ ν} {k : κ} {v : ν} (h : d.get? k = some v) :
    d.contains k = true := by
  rw [contains, h]
  rfl

theorem contains_iff (d : Dict κ ν) (k : κ) : d.contains k = true ↔ k ∈ d.keys := by
  obtain ⟨es⟩ := d
  rw [contains, get?, keys]
  simp only
  induction es with
  | nil => simp
  | cons e es ih =>
    rw [lookup_cons_eq_ite, List.map_cons, List.mem_cons]
    by_cases hk : k = e.1
    · simp [hk]
    · simp [hk, ih]

theorem contains_eq (d : Dict κ ν) (k : κ) : d.contains k = d.keys.contains k := by
  rw [Bool.eq_iff_iff, contains_iff, List.contains_iff_mem]

theorem Distinct.insert {d : Dict κ ν} (h : d.Distinct) (k : κ) (v : ν) :
    (d.insert k v).Distinct := by
  rw [Distinct, keys_insert]
  cases hk : d.contains k with
  | true => exact h
  | false =>
    have hnew : k ∉ d.keys := by
      rw [← contains_iff, hk]
      simp
    simp only [Bool.false_eq_true, if_false]
    rw [List.nodup_append]
    refine ⟨h, by simp, ?_⟩
    intro a ha b hb
    rw [List.mem_singleton.1 hb]
    rintro rfl
    exact hnew ha

theorem Distinct.erase {d : Dict κ ν} (h : d.Distinct) (k : κ) : (d.erase k).Distinct :=
  List.Nodup.sublist (List.Sublist.map Prod.fst List.filter_sublist) h

theorem get?_eq_some_iff {d : Dict κ ν} (h : d.Distinct) {k : κ} {v : ν} :
    d.get? k = some v ↔ (k, v) ∈ d.entries := by
  obtain ⟨es⟩ := d
  rw [Distinct, keys] at h
  rw [get?]
  simp only at h ⊢
  induction es with
  | nil => simp
  | cons e es ih =>
    obtain ⟨j, w⟩ := e
    rw [List.map_cons, List.nodup_cons] at h
    rw [lookup_cons_eq_ite]
    by_cases hk : k = j
    · subst hk
      have hfresh : (k, v) ∉ es := fun hm => h.1 (List.mem_map.2 ⟨(k, v), hm, rfl⟩)
      simp [hfresh, eq_comm]
    · simpa [hk] using ih h.2

theorem mem_of_get? {d : Dict κ ν} {k : κ} {v : ν} (h : d.get? k = some v) :
    (k, v) ∈ d.entries := by
  obtain ⟨es⟩ := d
  rw [get?] at h
  simp only at h ⊢
  induction es with
  | nil => cases h
  | cons e es ih =>
    rw [lookup_cons_eq_ite] at h
    split at h
    · next hk =>
      cases h
      rw [hk]
      exact List.mem_cons_self
    · exact List.mem_cons_of_mem e (ih h)

/-- A new key is put behind the others. -/
theorem entries_insert_new {d : Dict κ ν} {k : κ} (h : k ∉ d.keys) (v : ν) :
    (d.insert k v).entries = d.entries ++ [(k, v)] := by
  obtain ⟨es⟩ := d
  rw [keys] at h
  rw [insert]
  simp only at h ⊢
  induction es with
  | nil => rfl
  | cons e es ih =>
    rw [List.map_cons, List.mem_cons, not_or] at h
    rw [insertEntry, if_neg (Ne.symm h.1), ih h.2, List.cons_append]

/-- A known key keeps its place. -/
theorem entries_insert_known {d : Dict κ ν} (h : d.Distinct) {k : κ} (hk : d.contains k = true)
    (v : ν) : (d.insert k v).entries = d.entries.map fun e => (e.1, if e.1 = k then v else e.2) := by
  obtain ⟨es⟩ := d
  rw [Distinct, keys] at h
  rw [contains_iff, keys] at hk
  rw [insert]
  simp only at h hk ⊢
  induction es with
  | nil => cases hk
  | cons e es ih =>
    rw [List.map_cons, List.nodup_cons] at h
    rw [List.map_cons, List.mem_cons] at hk
    rw [insertEntry, List.map_cons]
    by_cases he : e.1 = k
    · have hrest : es.map (fun e => (e.1, if e.1 = k then v else e.2)) = es := by
        refine (List.map_congr_left fun a ha => ?_).trans (List.map_id es)
        have hne : a.1 ≠ k := fun heq => h.1 (he ▸ heq ▸ List.mem_map_of_mem ha)
        rw [if_neg hne]
        rfl
      rw [if_pos he, if_pos he, hrest, he]
    · rw [if_neg he, if_neg he, ih h.2 (hk.resolve_left fun heq => he heq.symm)]

theorem mem_entries_insert {d : Dict κ ν} {k : κ} {v : ν} {e : κ × ν}
    (h : e ∈ (d.insert k v).entries) : e = (k, v) ∨ e ∈ d.entries := by
  obtain ⟨es⟩ := d
  rw [insert] at h
  simp only at h ⊢
  induction es with
  | nil => exact .inl (List.mem_singleton.1 h)
  | cons a es ih =>
    rw [insertEntry] at h
    split at h
    · rcases List.mem_cons.1 h with h | h
      · exact .inl h
      · exact .inr (List.mem_cons_of_mem a h)
    · rcases List.mem_cons.1 h with h | h
      · exact .inr (h ▸ List.mem_cons_self)
      · rcases ih h with h | h
        · exact .inl h
        · exact .inr (List.mem_cons_of_mem a h)

omit [DecidableEq κ] in
theorem lookup_filter [BEq κ] [LawfulBEq κ] (p : κ → Bool) {k : κ} (hk : p k = true)
    (es : List (κ × ν)) : (es.filter fun e => p e.1).lookup k = es.lookup k := by
  induction es with
  | nil => rfl
  | cons e es ih =>
    obtain ⟨j, w⟩ := e
    by_cases hj : k = j
    · subst hj
      simp [hk]
    · have hbeq : (k == j) = false := by simpa using hj
      cases hp : p j <;> simp [List.lookup_cons, hp, hbeq, ih]

theorem lookup_map_values (f : κ × ν → ν) (k : κ) (es : List (κ × ν)) :
    (es.map fun e => (e.1, f e)).lookup k = (es.lookup k).map fun v => f (k, v) := by
  induction es with
  | nil => rfl
  | cons e es ih =>
    rw [List.map_cons, lookup_cons_eq_ite, lookup_cons_eq_ite, ih]
    by_cases hk : k = e.1 <;> simp [hk]

theorem filter_insertEntry (p : κ → Bool) (k : κ) (v : ν) (es : List (κ × ν)) :
    (insertEntry k v es).filter (fun e => p e.1) =
      if p k then insertEntry k v (es.filter fun e => p e.1) else es.filter fun e => p e.1 := by
  induction es with
  | nil => cases hp : p k <;> simp [insertEntry, hp]
  | cons e es ih =>
    rw [insertEntry]
    by_cases he : e.1 = k
    · subst he
      cases hp : p e.1 <;> simp [insertEntry, hp]
    · cases he' : p e.1 <;> cases hp : p k <;> simp [insertEntry, he, he', ih, hp]

theorem ofList_concat (pairs : List (κ × ν)) (e : κ × ν) :
    ofList (pairs ++ [e]) = (ofList pairs).insert e.1 e.2 := by
  rw [ofList, List.foldl_append]
  rfl

/-- Without repetitions, a last value stands behind the others if it is new. -/
theorem eraseDups_concat (l : List κ) (k : κ) :
    (l ++ [k]).eraseDups = if k ∈ l then l.eraseDups else l.eraseDups ++ [k] := by
  rw [List.eraseDups_append]
  by_cases hk : k ∈ l <;> simp [List.removeAll, List.eraseDups_cons, hk]

section Fold

variable {α : Type} (key : α → κ) (value : Dict κ ν → α → ν) (xs : List α)

theorem distinct_foldl_insert :
    (xs.foldl (fun d x => d.insert (key x) (value d x)) empty).Distinct := by
  refine List.foldlRecOn (motive := Distinct) xs _ distinct_empty ?_
  intro d hd x _
  exact hd.insert _ _

/-- A key keeps the place at which it first came. -/
theorem keys_foldl_insert :
    (xs.foldl (fun d x => d.insert (key x) (value d x)) empty).keys = (xs.map key).eraseDups := by
  induction xs using List.reverseRecOn with
  | nil => rfl
  | append_singleton xs x ih =>
    rw [List.foldl_append, List.foldl_cons, List.foldl_nil, keys_insert, List.map_append,
      List.map_singleton, eraseDups_concat]
    simp only [contains_iff, ih, List.mem_eraseDups]

end Fold

theorem values_eq {d : Dict κ ν} (h : d.Distinct) : d.values = d.keys.filterMap d.get? := by
  have hentries : ∀ e ∈ d.entries, d.get? e.1 = some e.2 := fun e he => (get?_eq_some_iff h).2 he
  rw [keys, values, List.filterMap_map]
  exact (List.filterMap_eq_map_iff_forall_eq_some.2 hentries).symm

/-- A key keeps the place of its first pair. -/
theorem keys_ofList (pairs : List (κ × ν)) :
    (ofList pairs).keys = (pairs.map Prod.fst).eraseDups :=
  keys_foldl_insert Prod.fst (fun _ e => e.2) pairs

/-- Of several pairs with one key the last counts. -/
theorem get?_ofList (pairs : List (κ × ν)) (k : κ) :
    (ofList pairs).get? k = (pairs.filter fun e => e.1 = k).getLast?.map Prod.snd := by
  induction pairs using List.reverseRecOn with
  | nil => rfl
  | append_singleton pairs e ih =>
    rw [ofList_concat, get?_insert, List.filter_append, ih]
    by_cases hk : k = e.1
    · simp [hk]
    · have he : ¬e.1 = k := fun h => hk h.symm
      simp [hk, he]

theorem get?_ofList_of_mem {pairs : List (κ × ν)} (h : (pairs.map Prod.fst).Nodup) {k : κ} {v : ν}
    (hmem : (k, v) ∈ pairs) : (ofList pairs).get? k = some v := by
  obtain ⟨front, rest, rfl⟩ := List.append_of_mem hmem
  rw [List.map_append, List.map_cons, List.nodup_append, List.nodup_cons] at h
  obtain ⟨-, ⟨hrest, -⟩, hfront⟩ := h
  have hnone : rest.filter (fun e => e.1 = k) = [] := by
    refine List.filter_eq_nil_iff.2 fun e he => ?_
    have hne : e.1 ≠ k := fun heq => hrest (List.mem_map.2 ⟨e, he, heq⟩)
    simpa using hne
  rw [get?_ofList, List.filter_append, List.filter_cons_of_pos (by simp), hnone, List.getLast?_concat,
    Option.map_some]

/-! ## Groups -/

section Groups

variable {α : Type} (key : α → κ) (xs : List α)

theorem groupBy_concat (x : α) :
    groupBy key (xs ++ [x]) =
      (groupBy key xs).insert (key x) (((groupBy key xs).get? (key x)).getD [] ++ [x]) := by
  rw [groupBy, List.foldl_append]
  rfl

/-- A group are the values of its key. -/
theorem get?_groupBy (k : κ) :
    (groupBy key xs).get? k =
      if xs.filter (fun x => key x = k) = [] then none
      else some (xs.filter fun x => key x = k) := by
  induction xs using List.reverseRecOn with
  | nil => rfl
  | append_singleton xs x ih =>
    rw [groupBy_concat, get?_insert, List.filter_append]
    by_cases hk : k = key x
    · subst hk
      have hgetD : ((groupBy key xs).get? (key x)).getD [] = xs.filter fun y => key y = key x := by
        rw [ih]
        split
        · next hnil => exact hnil.symm
        · rfl
      simp [hgetD]
    · have hx : ¬key x = k := fun h => hk h.symm
      simp [hk, hx, ih]

/-- The groups of some of the keys. -/
theorem entries_groupBy_filter (p : κ → Bool) :
    (groupBy key (xs.filter fun x => p (key x))).entries =
      (groupBy key xs).entries.filter fun e => p e.1 := by
  induction xs using List.reverseRecOn with
  | nil => rfl
  | append_singleton xs x ih =>
    rw [groupBy_concat, insert, filter_insertEntry, List.filter_append]
    cases hp : p (key x) with
    | false => simpa [hp] using ih
    | true =>
      have hsingle : [x].filter (fun x => p (key x)) = [x] := by simp [hp]
      have hget : (groupBy key (xs.filter fun x => p (key x))).get? (key x) =
          (groupBy key xs).get? (key x) := by
        rw [get?, ih]
        exact lookup_filter p hp _
      rw [hsingle, groupBy_concat, insert, ih, hget]
      rfl

theorem distinct_groupBy : (groupBy key xs).Distinct :=
  distinct_foldl_insert key (fun d x => (d.get? (key x)).getD [] ++ [x]) xs

theorem mem_entries_groupBy {k : κ} {group : List α} :
    (k, group) ∈ (groupBy key xs).entries ↔
      group ≠ [] ∧ group = xs.filter fun x => key x = k := by
  rw [← get?_eq_some_iff (distinct_groupBy key xs), get?_groupBy]
  by_cases hnil : xs.filter (fun x => key x = k) = []
  · rw [if_pos hnil, hnil]
    constructor
    · intro h
      cases h
    · rintro ⟨hne, rfl⟩
      exact absurd rfl hne
  · rw [if_neg hnil, Option.some.injEq]
    constructor
    · rintro rfl
      exact ⟨hnil, rfl⟩
    · rintro ⟨-, rfl⟩
      rfl

end Groups

end TranslationAudit.Dict
