/-! # Maps and sets in ascending order

* `SortedMap κ ν`: a map whose entries ascend by key; `alter` is its only way to change.
* `insertAscending`: a value put into an ascending list, unless it is there already.
* `dedup`: a list without repetitions, each value at its first place.
-/

namespace TranslationAudit

/-- A map whose entries ascend by key. -/
structure SortedMap (κ ν : Type) where
  entries : List (κ × ν)
deriving DecidableEq

namespace SortedMap

variable {κ ν : Type} [Ord κ]

def empty : SortedMap κ ν := ⟨[]⟩

instance : Inhabited (SortedMap κ ν) := ⟨empty⟩

def get? (m : SortedMap κ ν) (k : κ) : Option ν :=
  (m.entries.find? fun e => compare e.1 k == .eq).map Prod.snd

def contains (m : SortedMap κ ν) (k : κ) : Bool := (m.get? k).isSome

def alterEntries (k : κ) (f : Option ν → ν) : List (κ × ν) → List (κ × ν)
  | [] => [(k, f none)]
  | e :: r =>
    match compare k e.1 with
    | .lt => (k, f none) :: e :: r
    | .eq => (e.1, f (some e.2)) :: r
    | .gt => e :: alterEntries k f r

def alter (m : SortedMap κ ν) (k : κ) (f : Option ν → ν) : SortedMap κ ν :=
  ⟨alterEntries k f m.entries⟩

def insert (m : SortedMap κ ν) (k : κ) (v : ν) : SortedMap κ ν := m.alter k fun _ => v

def keys (m : SortedMap κ ν) : List κ := m.entries.map Prod.fst

def values (m : SortedMap κ ν) : List ν := m.entries.map Prod.snd

def size (m : SortedMap κ ν) : Nat := m.entries.length

/-- What the values of a map add up to. -/
def sum (m : SortedMap κ ν) (weight : ν → Nat) : Nat :=
  m.entries.foldr (fun e n => weight e.2 + n) 0

/-! ## What a look-up finds -/

@[simp] theorem get?_empty (k : κ) : (empty : SortedMap κ ν).get? k = none := rfl

theorem find_alterEntries_ne [Std.LawfulEqOrd κ] {k j : κ} (h : j ≠ k) (f : Option ν → ν)
    (es : List (κ × ν)) :
    ((alterEntries k f es).find? fun e => compare e.1 j == .eq) =
      es.find? fun e => compare e.1 j == .eq := by
  have hk : (compare k j == .eq) = false := by
    simpa [beq_eq_false_iff_ne] using fun e : k = j => h e.symm
  induction es with
  | nil => simp [alterEntries, hk]
  | cons e r ih =>
    cases hc : compare k e.1 with
    | lt => simp [alterEntries, hc, List.find?_cons, hk]
    | eq =>
      have he : k = e.1 := Std.LawfulEqOrd.eq_of_compare hc
      have hb : (compare e.1 j == .eq) = false := he ▸ hk
      simp [alterEntries, hc, hb]
    | gt => simp only [alterEntries, hc, List.find?_cons, ih]

/-- A change leaves what is found for other keys. -/
theorem get?_alter_ne [Std.LawfulEqOrd κ] (m : SortedMap κ ν) {k j : κ} (h : j ≠ k)
    (f : Option ν → ν) : (m.alter k f).get? j = m.get? j :=
  congrArg (Option.map Prod.snd) (find_alterEntries_ne h f m.entries)

theorem find_alterEntries_self [Std.LawfulEqOrd κ] (k : κ) (v : ν) (es : List (κ × ν)) :
    ((alterEntries k (fun _ => v) es).find? fun e => compare e.1 k == .eq).map Prod.snd =
      some v := by
  have hk : (compare k k == .eq) = true := by simp
  induction es with
  | nil => simp [alterEntries]
  | cons e r ih =>
    cases hc : compare k e.1 with
    | lt => simp [alterEntries, hc]
    | eq =>
      have he : k = e.1 := Std.LawfulEqOrd.eq_of_compare hc
      have hb : (compare e.1 k == .eq) = true := he ▸ hk
      simp [alterEntries, hc, hb]
    | gt =>
      have he : e.1 ≠ k := fun he => by simp [he] at hc
      have hb : (compare e.1 k == .eq) = false := by simpa [beq_eq_false_iff_ne] using he
      simpa [alterEntries, hc, List.find?_cons, hb] using ih

theorem get?_insert_self [Std.LawfulEqOrd κ] (m : SortedMap κ ν) (k : κ) (v : ν) :
    (m.insert k v).get? k = some v :=
  find_alterEntries_self k v m.entries

end SortedMap

/-- Puts a value into an ascending list, unless it is there. -/
def insertAscending {α : Type} [Ord α] (x : α) : List α → List α
  | [] => [x]
  | y :: r =>
    match compare x y with
    | .lt => x :: y :: r
    | .eq => y :: r
    | .gt => y :: insertAscending x r

/-- The values of a list in ascending order, each once. -/
def ascending {α : Type} [Ord α] (xs : List α) : List α :=
  xs.foldl (fun s x => insertAscending x s) []

/-- A list without repetitions, each value at its first place. -/
def dedup {α : Type} [DecidableEq α] (xs : List α) : List α :=
  xs.foldl (fun seen x => if x ∈ seen then seen else seen ++ [x]) []

end TranslationAudit
