import Confinement.Proofs.Manager.Requests

/-!
# Stacks and the managers below them

A stack does no work of its own: what it is asked goes on to its members, and all that stays of it
is the note of the call to its driver. So a tree of stacks is looked at as the list of its leaves,
and what is left behind is compared up to calls to stacks.
-/

namespace Confinement

/-! ### Calls to stacks -/

/-- Whether a driver is the library's own driver of stacks. -/
def Driver.isStack (d : Driver) : Bool := d.builtIn && d.name == Driver.stack.name

/-- Whether a call went to the library's own driver of stacks. -/
def Call.toStack (c : Call) : Bool := c.builtIn && c.driver == Driver.stack.name

namespace Engine

/-- The engine with no note of a call to a stack. -/
def withoutStackCalls (s : Engine) : Engine := { s with trace := s.trace.filter (!·.toStack) }

/-- The calls to drivers other than that of stacks, the first one first. -/
def log (s : Engine) : List Call := s.withoutStackCalls.trace.reverse

/-- The call to the driver of each of several managers. -/
def callsTo (s : Engine) (request : Request) (ids : List ManagerId) : List Call :=
  ids.filterMap fun id =>
    (s.manager? id).map fun m => ⟨m.driver.name, m.driver.builtIn, some id, request⟩

variable {s t : Engine} {id : ManagerId} {d : Driver}

@[simp] theorem withoutStackCalls_idem (s : Engine) :
    s.withoutStackCalls.withoutStackCalls = s.withoutStackCalls := by
  simp [withoutStackCalls]

theorem withoutStackCalls_record_stack (hd : d.isStack = true) (s : Engine) (id : ManagerId)
    (r : Request) : (s.record id d r).withoutStackCalls = s.withoutStackCalls := by
  have hc : (⟨d.name, d.builtIn, some id, r⟩ : Call).toStack = true := hd
  simp [withoutStackCalls, record, hc]

theorem withoutStackCalls_record (hd : d.isStack = false) (s : Engine) (id : ManagerId)
    (r : Request) : (s.record id d r).withoutStackCalls = s.withoutStackCalls.record id d r := by
  have hc : (⟨d.name, d.builtIn, some id, r⟩ : Call).toStack = false := hd
  simp [withoutStackCalls, record, hc]

/-- Who is open, and as what, is a matter of the managers alone. -/
theorem manager?_of_managers (h : s.managers = t.managers) (id : ManagerId) :
    s.manager? id = t.manager? id := by
  simp only [manager?, h]

theorem managers_congr (h : s.withoutStackCalls = t.withoutStackCalls) :
    s.managers = t.managers :=
  (congrArg managers h :)

theorem manager?_congr (h : s.withoutStackCalls = t.withoutStackCalls) (id : ManagerId) :
    s.manager? id = t.manager? id :=
  manager?_of_managers (managers_congr h) id

theorem SameRoles.of_managers (h : t.managers = s.managers) : s.SameRoles t :=
  ⟨congrArg List.length h, fun id => congrArg (Option.map Manager.role) (manager?_of_managers h id)⟩

theorem SameRoles.of_withoutStackCalls (h : s.withoutStackCalls = t.withoutStackCalls) :
    s.SameRoles t :=
  .of_managers (managers_congr h.symm)

theorem log_congr (h : s.withoutStackCalls = t.withoutStackCalls) : s.log = t.log :=
  congrArg (fun u => u.trace.reverse) h

theorem log_record (hd : d.isStack = false) (s : Engine) (id : ManagerId) (r : Request) :
    (s.record id d r).log = s.log ++ [⟨d.name, d.builtIn, some id, r⟩] := by
  rw [log, withoutStackCalls_record hd]
  exact List.reverse_cons ..

theorem callsTo_of_managers (h : s.managers = t.managers) (r : Request) (ids : List ManagerId) :
    s.callsTo r ids = t.callsTo r ids := by
  simp only [callsTo, manager?_of_managers h]

theorem callsTo_nil (s : Engine) (r : Request) : s.callsTo r [] = [] := rfl

theorem callsTo_cons {m : Manager} (hm : s.manager? id = some m) (r : Request)
    (ids : List ManagerId) :
    s.callsTo r (id :: ids) = ⟨m.driver.name, m.driver.builtIn, some id, r⟩ :: s.callsTo r ids := by
  simp [callsTo, hm]

theorem callsTo_append (s : Engine) (r : Request) (ids ids' : List ManagerId) :
    s.callsTo r (ids ++ ids') = s.callsTo r ids ++ s.callsTo r ids' :=
  List.filterMap_append ..

end Engine

/-! ### Trees of stacks -/

/-- A finite tree of the library's stacks over managers of other drivers. -/
inductive Engine.Stacked (s : Engine) : Tree → Prop
  | leaf {id : ManagerId} {m : Manager} (found : s.manager? id = some m)
      (other : m.driver.isStack = false) : s.Stacked (.leaf id)
  | stack {id : ManagerId} {m : Manager} {members : List Tree} (found : s.manager? id = some m)
      (driver : m.driver = .stack) (below : ∀ t ∈ members, s.Stacked t) :
      s.Stacked (.stack id members)

/-- No stack of the tree is without members. -/
inductive Tree.NoEmptyStack : Tree → Prop
  | leaf (id : ManagerId) : NoEmptyStack (.leaf id)
  | stack (id : ManagerId) {members : List Tree} (occupied : members ≠ [])
      (below : ∀ t ∈ members, t.NoEmptyStack) : NoEmptyStack (.stack id members)

namespace Tree

@[simp] theorem leaves_leaf (id : ManagerId) : (leaf id).leaves = [id] := by simp [leaves]

@[simp] theorem leaves_stack (id : ManagerId) (members : List Tree) :
    (stack id members).leaves = members.flatMap leaves := by
  simp [leaves]

end Tree

namespace Engine

variable {s t : Engine} {id : ManagerId} {m : Manager}

/-- Every leaf is an open manager, and its driver is not that of stacks. -/
theorem Stacked.worker {tree : Tree} (h : s.Stacked tree) :
    ∀ n ∈ tree.leaves, ∃ m, s.manager? n = some m ∧ m.driver.isStack = false := by
  induction h with
  | leaf found other =>
    intro n hn
    rw [Tree.leaves_leaf, List.mem_singleton] at hn
    exact ⟨_, hn ▸ found, other⟩
  | stack found driver below ih =>
    intro n hn
    rw [Tree.leaves_stack, List.mem_flatMap] at hn
    obtain ⟨t, ht, hn⟩ := hn
    exact ih t ht n hn

/-! ### What a stack does with a request -/

/-- A stack has its members carry out the operation, if the operation concerns the domain. -/
theorem visit_stack {st : Stage} (hm : st.engine.manager? id = some m) (hd : m.driver = .stack)
    (op : Operation) (below : Stage → Except Error Unit × Stage) :
    st.visit op id (some below) =
      if st.concerns op m then below (st.record id .stack op) else (.ok (), st) := by
  rw [Stage.visit, manager_eq_ok_iff.mpr hm]
  cases hc : st.concerns op m with
  | false => simp [hc]
  | true =>
    simp only [hc, Bool.true_eq_false, if_false, if_true, hd]
    rfl

theorem consult_stack (hm : s.manager? id = some m) (hd : m.driver = .stack) (q : Question)
    (d : Definition) (below : Engine → Except Error q.Answer × Engine) :
    s.consult q d id (some below) = below (s.record id .stack (.question q)) := by
  rw [consult, manager_eq_ok_iff.mpr hm]
  simp only [hd]
  rfl

theorem agree_stack (hm : s.manager? id = some m) (hd : m.driver = .stack)
    (below : Engine → Except Error Unit × Engine) :
    s.agree id (some below) = below (s.record id .stack .preFork) := by
  rw [agree, manager_eq_ok_iff.mpr hm]
  simp only [hd]
  rfl

theorem conclude_stack (hm : s.manager? id = some m) (hd : m.driver = .stack)
    (below : Engine → Engine) :
    s.conclude id below = below (s.record id .stack .postFork) := by
  simp only [conclude, hm, hd]
  rfl

end Engine

end Confinement
