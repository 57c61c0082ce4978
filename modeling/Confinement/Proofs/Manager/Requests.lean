import Confinement.Manager.Tree

/-!
# What requests leave as it is

A request may change what the drivers keep, the host and the definition. It changes no manager's
driver and policy and no stack's members, so the tree that a request will meet is the same before
and after it. A manager without members meets no other one, and its driver is asked once.
-/

namespace Confinement

/-! ### Roles -/

/-- All of a manager but what its driver keeps for it. -/
def Manager.role (m : Manager) : Driver × String × Policy × Option (List ManagerId) :=
  (m.driver, m.virtDriver, m.policy, m.members?)

theorem Manager.driver_of_role {m m' : Manager} (h : m'.role = m.role) : m'.driver = m.driver :=
  congrArg Prod.fst h

theorem Manager.policy_of_role {m m' : Manager} (h : m'.role = m.role) : m'.policy = m.policy :=
  congrArg (fun r => r.2.2.1) h

/-- A manager whose driver does its own work leaves none to members. -/
theorem Manager.members?_of_ne {m : Manager} (h : m.driver.technology ≠ .stack) :
    m.members? = none := by
  unfold members?
  split
  · rename_i ht _
    exact absurd ht h
  · rfl

theorem Manager.members?_of_stack {m : Manager} {ns : List ManagerId} (hd : m.driver = .stack)
    (hs : m.state = .stack ns) : m.members? = some ns := by
  rw [members?, hd, hs]
  rfl

/-- The members that a manager leaves its work to are those that it keeps. -/
theorem Manager.state_of_members? {m : Manager} {ns : List ManagerId} (h : m.members? = some ns) :
    m.state = .stack ns := by
  unfold members? at h
  split at h
  · rename_i members _ hstate
    obtain rfl := Option.some.inj h
    exact hstate
  · cases h

/-- The driver of a manager that works itself turns none of its managers into a stack. -/
theorem Manager.role_perform (m : Manager) (op : Operation) (s : Scene) (hs : s.state = m.state) :
    { m with state := (m.driver.technology.perform op s).2.state }.role = m.role := by
  by_cases ht : m.driver.technology = .stack
  · have hstate : (m.driver.technology.perform op s).2.state = m.state := by
      rw [ht]
      exact hs
    rw [hstate]
  · have h := members?_of_ne ht
    have h' := members?_of_ne
      (m := { m with state := (m.driver.technology.perform op s).2.state }) ht
    simp only [role, h, h']

namespace Engine

theorem manager_eq_ok_iff {s : Engine} {id : ManagerId} {m : Manager} :
    s.manager id = .ok m ↔ s.manager? id = some m := by
  unfold manager
  cases s.manager? id <;> simp

theorem lt_length_of_manager? {s : Engine} {id : ManagerId} {m : Manager}
    (h : s.manager? id = some m) : id < s.managers.length := by
  rcases Nat.lt_or_ge id s.managers.length with hlt | hge
  · exact hlt
  · have hn : s.managers[id]? = none := List.getElem?_eq_none hge
    simp [manager?, hn] at h

theorem manager?_setManager_self {s : Engine} {id : ManagerId} {m : Manager}
    (h : s.manager? id = some m) (m' : Manager) : (s.setManager id m').manager? id = some m' := by
  have hlt := lt_length_of_manager? h
  simp [manager?, setManager, hlt]

theorem manager?_setManager_of_ne (s : Engine) {id n : ManagerId} (h : n ≠ id) (m : Manager) :
    (s.setManager id m).manager? n = s.manager? n := by
  unfold manager? setManager
  rw [List.getElem?_set_ne (Ne.symm h)]

/-- Both engines have the same managers in the same roles. -/
structure SameRoles (s t : Engine) : Prop where
  count : t.managers.length = s.managers.length
  role : ∀ id, (t.manager? id).map Manager.role = (s.manager? id).map Manager.role

theorem SameRoles.refl (s : Engine) : s.SameRoles s := ⟨rfl, fun _ => rfl⟩

theorem SameRoles.trans {s t u : Engine} (h : s.SameRoles t) (h' : t.SameRoles u) :
    s.SameRoles u :=
  ⟨h'.count.trans h.count, fun id => (h'.role id).trans (h.role id)⟩

theorem SameRoles.manager {s t : Engine} (h : s.SameRoles t) {id : ManagerId} {m : Manager}
    (hm : s.manager? id = some m) : ∃ m', t.manager? id = some m' ∧ m'.role = m.role := by
  have hr := h.role id
  rw [hm, Option.map_some] at hr
  exact Option.map_eq_some_iff.mp hr

theorem SameRoles.record (s : Engine) (id : ManagerId) (d : Driver) (request : Request) :
    s.SameRoles (s.record id d request) := ⟨rfl, fun _ => rfl⟩

theorem SameRoles.setManager {s : Engine} {id : ManagerId} {m m' : Manager}
    (hm : s.manager? id = some m) (hr : m'.role = m.role) : s.SameRoles (s.setManager id m') := by
  refine ⟨by simp [Engine.setManager], fun n => ?_⟩
  by_cases hn : n = id
  · subst hn
    rw [manager?_setManager_self hm, hm, Option.map_some, Option.map_some, hr]
  · rw [manager?_setManager_of_ne s hn]

/-- Trees are made of roles alone. -/
theorem SameRoles.treeWithin {s t : Engine} (h : s.SameRoles t) (depth : Nat) (id : ManagerId) :
    t.treeWithin depth id = s.treeWithin depth id := by
  induction depth generalizing id with
  | zero => rfl
  | succ depth ih =>
    have hf : t.treeWithin depth = s.treeWithin depth := funext ih
    have hm : (t.manager? id).bind (·.members?) = (s.manager? id).bind (·.members?) := by
      have hr := congrArg (fun o => o.bind fun r => r.2.2.2) (h.role id)
      rw [Option.bind_map, Option.bind_map] at hr
      exact hr
    unfold Engine.treeWithin
    rw [hm, hf]

theorem SameRoles.tree {s t : Engine} (h : s.SameRoles t) (id : ManagerId) :
    t.tree id = s.tree id := by
  unfold Engine.tree
  rw [h.count, h.treeWithin]

theorem treeWithin_of_members?_none {s : Engine} {id : ManagerId} {m : Manager}
    (hm : s.manager? id = some m) (hn : m.members? = none) (depth : Nat) :
    s.treeWithin (depth + 1) id = .leaf id := by
  simp [treeWithin, hm, hn]

/-- A manager without members is all of its tree. -/
theorem tree_of_members?_none {s : Engine} {id : ManagerId} {m : Manager}
    (hm : s.manager? id = some m) (hn : m.members? = none) : s.tree id = .leaf id := by
  have hlt := lt_length_of_manager? hm
  unfold tree
  cases hd : s.managers.length with
  | zero => exact absurd (hd ▸ hlt) (Nat.not_lt_zero id)
  | succ depth => exact treeWithin_of_members?_none hm hn depth

theorem edit_of_members?_none {st : Stage} {id : ManagerId} {m : Manager}
    (hm : st.engine.manager? id = some m) (hn : m.members? = none) (op : Operation) :
    edit id op st = st.visit op id none := by
  rw [edit, tree_of_members?_none hm hn, Tree.perform]

/-- A driver with a hook for the operation is asked through the hook. -/
theorem edit_of_hooks_some {st : Stage} {id : ManagerId} {m : Manager} {op : Operation}
    (hm : st.engine.manager? id = some m) (hn : m.members? = none) (hop : op ≠ .verify)
    {r : Except Error Unit} {d : Definition}
    (hh : m.driver.hooks.perform st.engine.trace op st.definition = some (r, d)) :
    edit id op st = (r, (st.record id m.driver op).redefine op d) := by
  have hc : st.concerns op m = true := by simp [Stage.concerns, hop]
  rw [edit_of_members?_none hm hn, Stage.visit, manager_eq_ok_iff.mpr hm]
  simp only [hc, Bool.true_eq_false, if_false, hh]

/-- A driver without a hook for the operation has its technology work on the scene. -/
theorem edit_of_hooks_none {st : Stage} {id : ManagerId} {m : Manager} {op : Operation}
    (hm : st.engine.manager? id = some m) (hn : m.members? = none) (hop : op ≠ .verify)
    (hh : m.driver.hooks.perform st.engine.trace op st.definition = none) :
    edit id op st =
      ((m.driver.technology.perform op ((st.record id m.driver op).scene m)).1,
        (st.record id m.driver op).leave id m op
          (m.driver.technology.perform op ((st.record id m.driver op).scene m)).2) := by
  have hc : st.concerns op m = true := by simp [Stage.concerns, hop]
  rw [edit_of_members?_none hm hn, Stage.visit, manager_eq_ok_iff.mpr hm]
  simp only [hc, Bool.true_eq_false, if_false, hh]

end Engine

/-! ### One manager after the other -/

namespace Stage

open Engine (SameRoles manager_eq_ok_iff)

theorem engine_redefine (st : Stage) (op : Operation) (d : Definition) :
    (st.redefine op d).engine = st.engine := by
  unfold redefine
  split <;> rfl

/-- Operations that do not edit leave the definition as it is. -/
theorem definition_redefine {op : Operation} (hop : op.edits = false) (st : Stage)
    (d : Definition) : (st.redefine op d).definition = st.definition := by
  simp [redefine, hop]

theorem definition_visit {op : Operation} (hop : op.edits = false) (id : ManagerId) (st : Stage)
    {below : Option (Stage → Except Error Unit × Stage)}
    (hb : ∀ f, below = some f → ∀ st' : Stage, (f st').2.definition = st'.definition) :
    (st.visit op id below).2.definition = st.definition := by
  unfold visit
  split
  · rfl
  · split
    · rfl
    · dsimp only
      split
      · exact definition_redefine hop ..
      · cases below with
        | some f => exact hb f rfl _
        | none => exact definition_redefine hop ..

theorem definition_leave {op : Operation} (hop : op.edits = true) (st : Stage) (id : ManagerId)
    (m : Manager) (s : Scene) : (st.leave id m op s).definition = s.definition := by
  simp only [leave, redefine, hop, if_true]

theorem trace_leave (st : Stage) (id : ManagerId) (m : Manager) (op : Operation) (s : Scene) :
    (st.leave id m op s).engine.trace = st.engine.trace := by
  simp only [leave, engine_redefine, Engine.setManager]

/-- A manager keeps what its technology leaves in the scene. -/
theorem manager?_leave {st : Stage} {id : ManagerId} {m : Manager}
    (hm : st.engine.manager? id = some m) (op : Operation) (s : Scene) :
    (st.leave id m op s).engine.manager? id = some { m with state := s.state } := by
  simp only [leave, engine_redefine]
  exact Engine.manager?_setManager_self hm _

/-- To ask a manager keeps the roles, if its members keep them. -/
theorem sameRoles_visit (op : Operation) (id : ManagerId) (st : Stage)
    {below : Option (Stage → Except Error Unit × Stage)}
    (hb : ∀ f, below = some f → ∀ st' : Stage, st'.engine.SameRoles (f st').2.engine) :
    st.engine.SameRoles (st.visit op id below).2.engine := by
  have hnoted : ∀ d, st.engine.SameRoles (st.record id d op).engine := fun d => .record ..
  unfold visit
  split
  · exact .refl st.engine
  · rename_i m hm
    replace hm := manager_eq_ok_iff.mp hm
    split
    · exact .refl st.engine
    · dsimp only
      split
      · rw [engine_redefine]
        exact hnoted m.driver
      · cases below with
        | some f => exact (hnoted m.driver).trans (hb f rfl _)
        | none =>
          refine (hnoted m.driver).trans ?_
          obtain ⟨hcount, hrole⟩ := SameRoles.setManager (s := st.engine) hm
            (m.role_perform op ((st.record id m.driver op).scene m) rfl)
          simp only [leave, engine_redefine]
          exact ⟨hcount, hrole⟩

end Stage

namespace Tree

/-- Induction over the managers of a tree, each stack after all of its members. -/
@[elab_as_elim]
theorem inductionOn {motive : Tree → Prop} (t : Tree) (leaf : ∀ id, motive (.leaf id))
    (stack : ∀ id members, (∀ t ∈ members, motive t) → motive (.stack id members))
    (endless : ∀ id, motive (.endless id)) : motive t :=
  @Tree.rec motive (fun members => ∀ t ∈ members, motive t) leaf stack endless
    (fun _ h => absurd h List.not_mem_nil)
    (fun _ _ hhead htail t ht => by
      rcases List.mem_cons.mp ht with rfl | ht
      · exact hhead
      · exact htail t ht) t

/-- What every step of a fan-out does, the fan-out does. -/
theorem performAll_induction {op : Operation} {R : Stage → Stage → Prop} (hrefl : ∀ st, R st st)
    (htrans : ∀ {st st' st''}, R st st' → R st' st'' → R st st'') {ts : List Tree}
    (hts : ∀ t ∈ ts, ∀ st, R st (t.perform op st).2) (st : Stage) :
    R st (performAll op ts st).2 := by
  induction ts generalizing st with
  | nil => simpa using hrefl st
  | cons t ts ih =>
    have ht := hts t (List.mem_cons_self ..) st
    have hrest := ih (fun t' h' => hts t' (List.mem_cons_of_mem t h')) (t.perform op st).2
    rw [performAll]
    exact htrans ht hrest

/-- No request changes a role, whatever tree of managers it meets. -/
theorem sameRoles_perform (op : Operation) (t : Tree) (st : Stage) :
    st.engine.SameRoles (t.perform op st).2.engine := by
  induction t using inductionOn generalizing st with
  | leaf id =>
    rw [perform]
    exact Stage.sameRoles_visit op id st fun f hf => by cases hf
  | stack id members ih =>
    rw [perform]
    refine Stage.sameRoles_visit op id st ?_
    rintro f ⟨rfl⟩ st'
    exact performAll_induction (R := fun st st' => st.engine.SameRoles st'.engine)
      (fun st => .refl st.engine) (fun h h' => h.trans h') (fun t ht => ih t ht) st'
  | endless id =>
    rw [perform]
    exact .refl st.engine

theorem definition_perform {op : Operation} (hop : op.edits = false) (t : Tree) (st : Stage) :
    (t.perform op st).2.definition = st.definition := by
  induction t using inductionOn generalizing st with
  | leaf id =>
    rw [perform]
    exact Stage.definition_visit hop id st fun f hf => by cases hf
  | stack id members ih =>
    rw [perform]
    refine Stage.definition_visit hop id st ?_
    rintro f ⟨rfl⟩ st'
    exact performAll_induction (R := fun st st' => st'.definition = st.definition)
      (fun _ => rfl) (fun h h' => h'.trans h) (fun t ht => ih t ht) st'
  | endless id =>
    rw [perform]

end Tree

theorem Engine.sameRoles_edit (id : ManagerId) (op : Operation) (st : Stage) :
    st.engine.SameRoles (edit id op st).2.engine :=
  (st.engine.tree id).sameRoles_perform op st

theorem Engine.sameRoles_perform (id : ManagerId) (op : Operation) (d : Definition) (s : Engine) :
    s.SameRoles (s.perform id op d).2 :=
  (s.tree id).sameRoles_perform op ⟨s, d⟩

end Confinement
