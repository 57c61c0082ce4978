import Confinement.Manager.Tree

/-!
# Generating labels

A domain gets a label from every manager that its caller has to satisfy. The policy of the manager
settles an entry that is still open, then the manager's driver completes it. The first failure ends
the generation, and only the entry of the manager that failed is put back.
-/

namespace Confinement

/-- An entry whose type the policy has settled, if it was open. -/
def Policy.settle (p : Policy) (e : LabelEntry) : LabelEntry :=
  if e.type = .undecided then
    if p.defaultConfined then { e with type := .dynamic }
    else { e with type := .unconfined, noRelabel := true }
  else e

/-- What generation does with the entry of one manager. -/
inductive Plan
  /-- The policy forbids the entry. -/
  | refuse
  /-- The domain has entries and needs none that confines nothing. -/
  | skip
  /-- The entry of the domain, at its position, is completed. -/
  | complete (position : Nat) (entry : LabelEntry)
  /-- A new entry is added and completed. -/
  | supply (entry : LabelEntry)
  deriving DecidableEq, Repr

/-- The position and the entry that the domain has for a model. -/
def Definition.locateEntry (d : Definition) (model : String) : Option (Nat × LabelEntry) :=
  (d.position? model).bind fun i => (d.entries[i]?).map fun e => (i, e)

/-- The plan for a manager's model under the manager's policy. -/
def Policy.plan (p : Policy) (model : String) (d : Definition) : Plan :=
  let existing := d.locateEntry model
  let entry := p.settle (match existing with
    | some (_, e) => e
    | none => .implied model)
  if entry.type = .unconfined ∧ p.requireConfined then .refuse
  else match existing with
    | some (i, _) => .complete i entry
    | none => if entry.type = .unconfined ∧ d.entries ≠ [] then .skip else .supply entry

/-- Puts the entry back that stood at a position. -/
def Definition.putBack (d : Definition) (i : Nat) (former : Option LabelEntry) : Definition :=
  match former with
  | some e => d.setEntryAt i e
  | none => d

namespace Engine

/-- Generates the label of one manager. After a failure the manager's entry is as it was. -/
def generateOne (id : ManagerId) (st : Stage) : Except Error Unit × Stage :=
  match st.engine.manager id with
  | .error e => (.error e, st)
  | .ok m =>
    match m.policy.plan m.driver.name st.definition with
    | .refuse => (.error (.configUnsupported .unconfinedRefused), st)
    | .skip => (.ok (), st)
    | .complete i entry =>
      let former := st.definition.entries[i]?
      match edit id .generate { st with definition := st.definition.setEntryAt i entry } with
      | (.ok (), st) => (.ok (), st)
      | (.error e, st) => (.error e, { st with definition := st.definition.putBack i former })
    | .supply entry =>
      match edit id .generate { st with definition := st.definition.addEntry entry } with
      | (.ok (), st) => (.ok (), st)
      | (.error e, st) => (.error e, { st with definition := st.definition.dropLastEntry })

/-- Generates labels for several managers, up to the first failure. -/
def generateEach : List ManagerId → Stage → Except Error Unit × Stage
  | [], st => (.ok (), st)
  | id :: ids, st =>
    match generateOne id st with
    | (.ok (), st) => generateEach ids st
    | (.error e, st) => (.error e, st)

def provides (s : Engine) (ids : List ManagerId) (model : String) : Bool :=
  ids.any fun id => (s.manager? id).any (·.driver.name == model)

/-- The first model among the entries that no manager provides. -/
def unknownModel? (s : Engine) (ids : List ManagerId) (d : Definition) : Option String :=
  (d.entries.filterMap (·.model)).find? fun model => !s.provides ids model

/-- Completes or adds the entry of every manager that `id` stands for. -/
def generateLabels (id : ManagerId) (st : Stage) : Except Error Unit × Stage :=
  let ids := st.engine.nested id
  match st.engine.unknownModel? ids st.definition with
  | some model => (.error (.configUnsupported (.unknownModel model)), st)
  | none => generateEach ids st

@[simp] theorem generateEach_nil (st : Stage) : generateEach [] st = (.ok (), st) := rfl

end Engine

theorem Policy.settle_of_ne {p : Policy} {e : LabelEntry} (h : e.type ≠ .undecided) :
    p.settle e = e := by
  simp [settle, h]

theorem Policy.type_settle_ne (p : Policy) (e : LabelEntry) :
    (p.settle e).type ≠ .undecided := by
  unfold settle
  split
  · split <;> simp
  · assumption

end Confinement
