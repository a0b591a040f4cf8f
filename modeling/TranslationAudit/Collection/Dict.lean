/-! # Dictionaries in insertion order

* `Dict κ ν`: a dictionary whose entries keep the place of their first insertion.
* `insert` puts a new key at the end and changes the value of a known key where it stands; `erase`
  closes the gap.
* `ofList`: a list of pairs read as successive insertions; `groupBy`: a list sorted into groups.
-/

namespace TranslationAudit

/-- A dictionary that remembers the order in which its keys first came. -/
structure Dict (κ ν : Type) where
  entries : List (κ × ν)
deriving DecidableEq

namespace Dict

variable {κ ν : Type} [DecidableEq κ]

def empty : Dict κ ν := ⟨[]⟩

instance : Inhabited (Dict κ ν) := ⟨empty⟩

def get? (d : Dict κ ν) (k : κ) : Option ν := d.entries.lookup k

def contains (d : Dict κ ν) (k : κ) : Bool := (d.get? k).isSome

/-- Changes the value of a known key in place, or adds the key at the end. -/
def insertEntry (k : κ) (v : ν) : List (κ × ν) → List (κ × ν)
  | [] => [(k, v)]
  | e :: r => if e.1 = k then (k, v) :: r else e :: insertEntry k v r

def insert (d : Dict κ ν) (k : κ) (v : ν) : Dict κ ν := ⟨insertEntry k v d.entries⟩

def erase (d : Dict κ ν) (k : κ) : Dict κ ν := ⟨d.entries.filter fun e => e.1 ≠ k⟩

def ofList (pairs : List (κ × ν)) : Dict κ ν :=
  pairs.foldl (fun d e => d.insert e.1 e.2) empty

/-- The values of a list by a key, in the order in which the keys first come. -/
def groupBy {α : Type} (key : α → κ) (xs : List α) : Dict κ (List α) :=
  xs.foldl (fun d x => d.insert (key x) ((d.get? (key x)).getD [] ++ [x])) empty

def keys (d : Dict κ ν) : List κ := d.entries.map Prod.fst

def values (d : Dict κ ν) : List ν := d.entries.map Prod.snd

def size (d : Dict κ ν) : Nat := d.entries.length

def isEmpty (d : Dict κ ν) : Bool := d.entries.isEmpty

/-! ## What a look-up finds -/

omit [DecidableEq κ] in
@[simp] theorem keys_empty : (empty : Dict κ ν).keys = [] := rfl

@[simp] theorem get?_empty (k : κ) : (empty : Dict κ ν).get? k = none := rfl

theorem lookup_cons_eq_ite (j : κ) (e : κ × ν) (r : List (κ × ν)) :
    (e :: r).lookup j = if j = e.1 then some e.2 else r.lookup j := by
  obtain ⟨k, v⟩ := e
  by_cases h : j = k
  · simp [h]
  · have hb : (j == k) = false := by simpa using h
    simp [List.lookup_cons, hb, h]

theorem lookup_insertEntry (k j : κ) (v : ν) (es : List (κ × ν)) :
    (insertEntry k v es).lookup j = if j = k then some v else es.lookup j := by
  induction es with
  | nil => simp [insertEntry, lookup_cons_eq_ite]
  | cons e r ih =>
    by_cases he : e.1 = k
    · by_cases h : j = k <;> simp [insertEntry, lookup_cons_eq_ite, he, h]
    · by_cases h : j = e.1 <;> simp [insertEntry, lookup_cons_eq_ite, he, h, ih]

/-- An insertion changes what is found for its own key only. -/
theorem get?_insert (d : Dict κ ν) (k j : κ) (v : ν) :
    (d.insert k v).get? j = if j = k then some v else d.get? j :=
  lookup_insertEntry k j v d.entries

theorem map_fst_insertEntry (k : κ) (v : ν) (es : List (κ × ν)) :
    (insertEntry k v es).map Prod.fst =
      if (es.lookup k).isSome then es.map Prod.fst else es.map Prod.fst ++ [k] := by
  induction es with
  | nil => simp [insertEntry]
  | cons e r ih =>
    by_cases he : e.1 = k
    · simp [insertEntry, lookup_cons_eq_ite, he]
    · have h : k ≠ e.1 := fun h => he h.symm
      simp only [insertEntry, he, h, if_false, List.map_cons, ih, lookup_cons_eq_ite]
      split <;> simp

/-- A known key keeps its place, and a new key comes last. -/
theorem keys_insert (d : Dict κ ν) (k : κ) (v : ν) :
    (d.insert k v).keys = if d.contains k then d.keys else d.keys ++ [k] :=
  map_fst_insertEntry k v d.entries

theorem lookup_filter_ne (k j : κ) (es : List (κ × ν)) :
    (es.filter fun e => e.1 ≠ k).lookup j = if j = k then none else es.lookup j := by
  induction es with
  | nil => simp
  | cons e r ih =>
    rw [List.filter_cons, lookup_cons_eq_ite]
    by_cases he : e.1 = k
    · simp only [he, ne_eq, not_true_eq_false, decide_false, Bool.false_eq_true, if_false]
      rw [ih]
      split <;> rfl
    · simp only [he, ne_eq, not_false_eq_true, decide_true, if_true, lookup_cons_eq_ite]
      rw [ih]
      by_cases h : j = e.1 <;> simp [h, he]

/-- An erasure changes what is found for its own key only. -/
theorem get?_erase (d : Dict κ ν) (k j : κ) :
    (d.erase k).get? j = if j = k then none else d.get? j :=
  lookup_filter_ne k j d.entries

end Dict

end TranslationAudit
