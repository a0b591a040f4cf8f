import TranslationAudit.Catalog.Document

/-! # Changing catalogs

* `Document.insert`: adds a unit unless its identifier is taken.
* `Document.remove`: removes a unit, a plural form or a whole group.

Both tell whether they changed the document.
-/

namespace TranslationAudit.Catalog

/-- Adds a form unless the group has it. -/
def PluralGroup.insertForm (g : PluralGroup) (i : Nat) (u : TransUnit) : PluralGroup × Bool :=
  if g.forms.contains i then (g, false)
  else ({ g with forms := g.forms.insert i u, children := g.children ++ [.form i] }, true)

namespace Document

def insertForm (d : Document) (base : String) (g : PluralGroup) (i : Nat) (u : TransUnit) :
    Document × Bool :=
  let (g, changed) := g.insertForm i u
  if changed then ({ d with units := d.units.insert base (.plural g) }, true) else (d, false)

/-- Adds a unit unless its identifier is taken. An identifier `base[n]` stands for form `n` of the
group `base`, which is made if there is none; the identifier of a group stands for its form 0. -/
def insert (d : Document) (id : String) (u : TransUnit) : Document × Bool :=
  if id.isEmpty then (d, false)
  else
    match splitPluralForm id with
    | some (base, i) =>
      match d.units.get? base with
      | some (.plural g) => d.insertForm base g i u
      | some (.single _) => (d, false)
      | none => d.insertForm base {} i u
    | none =>
      match d.units.get? id with
      | some (.plural g) => d.insertForm id g 0 u
      | some (.single _) => (d, false)
      | none => ({ d with units := d.units.insert id (.single u) }, true)

def isUnitNode (id : String) : BodyNode → Bool
  | .unit other => other = id
  | .foreign _ => false

def drop (d : Document) (id : String) : Document :=
  { d with units := d.units.erase id, body := d.body.filter fun n => !isUnitNode id n }

def isFormChild (i : Nat) : GroupChild → Bool
  | .form j => j = i
  | .foreign _ => false

/-- Removes a form, and its group with the last one. -/
def removeForm (d : Document) (base : String) (g : PluralGroup) (i : Nat) : Document × Bool :=
  if g.forms.contains i then
    let forms := ⟨g.forms.entries.filter fun e => e.1 ≠ i⟩
    if forms.entries.isEmpty then (d.drop base, true)
    else
      let g := { g with forms, children := g.children.filter fun c => !isFormChild i c }
      ({ d with units := d.units.insert base (.plural g) }, true)
  else (d, false)

/-- Removes what an identifier names: form `n` of the group `base` for `base[n]` if there is such a
group, and otherwise a single unit or a whole group. -/
def remove (d : Document) (id : String) : Document × Bool :=
  let whole := if d.units.contains id then (d.drop id, true) else (d, false)
  match splitPluralForm id with
  | none => whole
  | some (base, i) =>
    match d.units.get? base with
    | some (.plural g) => d.removeForm base g i
    | _ => whole

end Document

end TranslationAudit.Catalog
