import Confinement.Manager.Assembly
import Confinement.Proofs.Manager.Construction

/-!
# Opening managers of drivers that are looked up

A search asks the drivers of a registry in turn and finds the first one that can be used. What it
finds may be refused for the policy, and is opened like any other driver. A manager of ownership
needs no search and always opens.
-/

namespace Confinement

variable {d : Driver} {h : Host} {name : Option String} {virtDriver : String}

/-! ### Finding drivers -/

/-- The driver can be used on a host, and goes by the name that was given, if one was. -/
def Driver.Meets (d : Driver) (h : Host) (name : Option String) (virtDriver : String) : Prop :=
  (∀ n, name = some n → d.name = n) ∧ d.usable h virtDriver = true

namespace Registry

variable {r : Registry}

/-- `d` is the first driver of the registry that can be used on a host under a name. -/
def Resolves (r : Registry) (h : Host) (name : Option String) (virtDriver : String) (d : Driver) :
    Prop :=
  d.Meets h name virtDriver ∧
    ∃ before after, r = before ++ d :: after ∧ ∀ d' ∈ before, ¬d'.Meets h name virtDriver

theorem find?_eq_some_iff :
    r.find? h name virtDriver = some d ↔ r.Resolves h name virtDriver d := by
  have hmeets : ∀ d : Driver, d.Meets h name virtDriver ↔
      (name.all (d.name == ·) && d.usable h virtDriver) = true := by
    intro d
    cases name <;> simp [Driver.Meets]
  have hfind : r.find? h name virtDriver =
      List.find? (fun d => name.all (d.name == ·) && d.usable h virtDriver) r := by
    cases name <;> simp [find?, candidates, List.find?_filter, beq_eq_decide]
  simp only [hfind, List.find?_eq_some_iff_append, Resolves, hmeets, Bool.not_eq_true',
    Bool.not_eq_true]

theorem Resolves.unique {d' : Driver} (hd : r.Resolves h name virtDriver d)
    (hd' : r.Resolves h name virtDriver d') : d = d' :=
  Option.some.inj ((find?_eq_some_iff.mpr hd).symm.trans (find?_eq_some_iff.mpr hd'))

/-- The calls of a search, the latest first. -/
def probes (r : Registry) (h : Host) (name : Option String) (virtDriver : String) : List Call :=
  let asked := r.asked h name virtDriver
  (asked.map fun d => ⟨d.name, d.builtIn, none, .probe virtDriver⟩).reverse

/-- A search concerns no manager. -/
theorem manager_of_mem_probes (r : Registry) (h : Host) (name : Option String)
    (virtDriver : String) : ∀ c ∈ r.probes h name virtDriver, c.manager = none := by
  intro c hc
  obtain ⟨d, -, rfl⟩ := List.mem_map.mp (List.mem_reverse.mp hc)
  rfl

/-- The opening of the driver that a search finds, for a manager with the number `id`. -/
def opening (r : Registry) (h : Host) (name : Option String) (virtDriver : String)
    (id : ManagerId) : List Call :=
  (r.find? h name virtDriver).toList.map fun d => ⟨d.name, d.builtIn, some id, .opening⟩

theorem opening_eq (hd : r.find? h name virtDriver = some d) (id : ManagerId) :
    r.opening h name virtDriver id = [⟨d.name, d.builtIn, some id, .opening⟩] := by
  rw [opening, hd]
  rfl

end Registry

namespace Engine

/-- The engine after further calls. -/
def withCalls (t : Engine) (calls : List Call) : Engine := { t with trace := calls ++ t.trace }

@[simp] theorem trace_withCalls (t : Engine) (calls : List Call) :
    (t.withCalls calls).trace = calls ++ t.trace := rfl

@[simp] theorem managers_withCalls (t : Engine) (calls : List Call) :
    (t.withCalls calls).managers = t.managers := rfl

@[simp] theorem host_withCalls (t : Engine) (calls : List Call) :
    (t.withCalls calls).host = t.host := rfl

theorem eval_lookUp (r : Registry) (name : Option String) (virtDriver : String) (t : Engine) :
    (lookUp r name virtDriver).eval t =
      (.ok (r.find? t.host name virtDriver),
        t.withCalls (r.probes t.host name virtDriver)) := rfl

/-- A search fails, or what it finds is refused for the policy, or is opened. -/
theorem eval_openNamed (r : Registry) (name : Option String) (virtDriver : String) (policy : Policy)
    (t : Engine) :
    (openNamed r name virtDriver policy).eval t =
      match r.find? t.host name virtDriver with
      | none => (.error (notFound name), t.withCalls (r.probes t.host name virtDriver))
      | some d =>
        match d.adapt policy with
        | .error e => (.error e, t.withCalls (r.probes t.host name virtDriver))
        | .ok policy =>
          (openManager d virtDriver policy).eval
            (t.withCalls (r.probes t.host name virtDriver)) := by
  unfold openNamed
  rw [Run.eval_bind, eval_lookUp]
  cases r.find? t.host name virtDriver with
  | none => rfl
  | some d =>
    dsimp only
    rw [Run.eval_bind, Run.eval_lift]
    cases d.adapt policy <;> rfl

/-! ### The manager of ownership -/

theorem eval_editOwnership {s : Engine} {id : ManagerId} {m : Manager} {p : OwnershipPolicy}
    (hm : s.manager? id = some m) (hs : m.state = .dac p)
    (f : OwnershipPolicy → OwnershipPolicy) :
    (editOwnership id f).eval s = (.ok (), s.setManager id { m with state := .dac (f p) }) := by
  unfold editOwnership
  simp only [Run.eval_bind, Run.eval_get, Run.eval_lift, manager_eq_ok_iff.mpr hm, hs, Run.eval_set]

theorem editOwnership_withManager (d : Driver) (virtDriver : String) (policy : Policy)
    (p : OwnershipPolicy) (f : OwnershipPolicy → OwnershipPolicy) (t : Engine) :
    (editOwnership t.managers.length f).eval (t.withManager ⟨d, virtDriver, policy, .dac p⟩) =
      (.ok (), t.withManager ⟨d, virtDriver, policy, .dac (f p)⟩) := by
  rw [eval_editOwnership (manager?_withManager_self t ⟨d, virtDriver, policy, .dac p⟩) rfl]
  simp [setManager, withManager]

/-- A manager of ownership always opens. -/
theorem eval_openDac (virtDriver : String) (owner : Ownership) (policy : Policy) (dynamic : Bool)
    (t : Engine) :
    (openDac virtDriver owner policy dynamic).eval t = (.ok t.managers.length,
      t.withManager ⟨.dac, virtDriver, policy, .dac ⟨owner, dynamic⟩⟩) := by
  have hopened : (openManager .dac virtDriver policy).eval t =
      (.ok t.managers.length, t.withManager ⟨.dac, virtDriver, policy, .dac {}⟩) :=
    eval_openManager ..
  unfold openDac setOwner setDynamicOwnership
  simp only [Run.eval_bind, Run.eval_guarding, hopened, editOwnership_withManager]
  rfl

end Engine

end Confinement
