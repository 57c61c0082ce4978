import Confinement.Proofs.Definition.Entries
import Confinement.Proofs.Manager.Cycles
import Confinement.Proofs.Manager.Leaves

/-!
# Checking a stack

A check concerns a manager only if the domain has an entry of the driver's name. Drivers check
entries of their own model, but there is no model of stacks: without an entry that is named for the
stacks' driver a stack passes every domain, and its members are not asked. With such an entry the
check of a stack is the check of all members.
-/

namespace Confinement

namespace Engine

variable {s : Engine} {id : ManagerId} {m : Manager} {ns : List ManagerId} {d : Definition}

/-! ### A stack and its members -/

def performEach (op : Operation) (d : Definition) :
    List ManagerId → Engine → Except Error Unit × Engine
  | [], s => (.ok (), s)
  | id :: ids, s =>
    let (r, s) := s.perform id op d
    let (r', s) := performEach op d ids s
    (firstFailure r r', s)

theorem tree_perform {op : Operation} (hop : op.edits = false) {t : Engine} (ht : s.SameRoles t)
    (id : ManagerId) (d : Definition) :
    (s.tree id).perform op ⟨t, d⟩ = ((t.perform id op d).1, ⟨(t.perform id op d).2, d⟩) := by
  have hd := (t.tree id).definition_perform hop ⟨t, d⟩
  rw [← ht.tree id]
  unfold perform
  generalize (t.tree id).perform op ⟨t, d⟩ = out at hd ⊢
  obtain ⟨r, engine, definition⟩ := out
  obtain rfl : definition = d := hd
  rfl

/-- The trees of several managers are asked as the managers are, one after the other. -/
theorem performAll_map_tree {op : Operation} (hop : op.edits = false) (ns : List ManagerId)
    (d : Definition) {t : Engine} (ht : s.SameRoles t) :
    Tree.performAll op (ns.map s.tree) ⟨t, d⟩ =
      ((performEach op d ns t).1, ⟨(performEach op d ns t).2, d⟩) := by
  induction ns generalizing t with
  | nil => simp [performEach]
  | cons n ns ih =>
    have hn := tree_perform hop ht n d
    have hns := ih (ht.trans (sameRoles_perform n op d t))
    rw [List.map_cons, Tree.performAll, hn]
    simp only [hns]
    rfl

/-- A stack that an operation concerns leaves it to each of its members. -/
theorem perform_stack {op : Operation} (hop : op.edits = false) (hm : s.manager? id = some m)
    (hdriver : m.driver = .stack) (hmem : m.members? = some ns) (ht : (s.tree id).Ends)
    (hc : (Stage.mk s d).concerns op m = true) :
    s.perform id op d = performEach op d ns (s.record id .stack (.operation op)) := by
  have hroles : s.SameRoles (s.record id .stack (.operation op)) := .record ..
  have hall : Tree.performAll op (ns.map s.tree) ((Stage.mk s d).record id .stack op) = _ :=
    performAll_map_tree hop ns d hroles
  unfold perform
  rw [(tree_of_ends ht hm hmem).1, Tree.perform, visit_stack hm hdriver, if_pos hc, hall]

/-- A stack that an operation does not concern succeeds, and its members are not asked. -/
theorem perform_of_not_concerns {op : Operation} (hm : s.manager? id = some m)
    (hmem : m.members? = some ns) (ht : (s.tree id).Ends)
    (hc : (Stage.mk s d).concerns op m = false) : s.perform id op d = (.ok (), s) := by
  unfold perform
  rw [(tree_of_ends ht hm hmem).1, Tree.perform, Stage.visit, manager_eq_ok_iff.mpr hm]
  simp only [hc, if_true]

/-- A stack passes every domain without an entry that is named for stacks, whatever its members find
wrong. Otherwise the check of the stack is the check of each member, in order, and its failure is
their first one. -/
theorem verify_stack (hm : s.manager? id = some m) (hdriver : m.driver = .stack)
    (hmem : m.members? = some ns) (ht : (s.tree id).Ends) (d : Definition) :
    (d.findEntry Driver.stack.name = none → s.perform id .verify d = (.ok (), s)) ∧
      (d.findEntry Driver.stack.name ≠ none → s.perform id .verify d =
        performEach .verify d ns (s.record id .stack (.operation .verify))) := by
  have hconcerns : (Stage.mk s d).concerns .verify m = (d.findEntry Driver.stack.name).isSome := by
    simp [Stage.concerns, hdriver]
  constructor
  · intro hnone
    refine perform_of_not_concerns hm hmem ht ?_
    rw [hconcerns, hnone]
    rfl
  · intro hsome
    refine perform_stack rfl hm hdriver hmem ht ?_
    rw [hconcerns]
    exact Option.isSome_iff_ne_none.mpr hsome

def checkedHost : Engine where
  managers :=
    [some ⟨.dac, "qemu", {}, .dac {}⟩,
     some ⟨.stack, "qemu", {}, .stack [0]⟩,
     some ⟨.stack, "qemu", {}, .stack [1]⟩]
  held := [2]

/-- A static owner that cannot be read. -/
def unreadableOwner : LabelEntry :=
  { LabelEntry.supplied "dac" .static with label := some "nobody" }

/-- With an entry for stacks the failure at the owner comes up, and without one it does not. -/
theorem verify_checkedHost :
    checkedHost.perform 2 .verify (.guest [unreadableOwner]) = (.ok (), checkedHost) ∧
      (checkedHost.perform 2 .verify
        (.guest [.supplied "stack" .unconfined, unreadableOwner])).1 =
          .error (.invalidLabel "dac" "nobody") := by
  have hends : (checkedHost.tree 2).Ends := by
    have htree : checkedHost.tree 2 = .stack 2 [.stack 1 [.leaf 0]] := rfl
    have hinner : (Tree.stack 1 [.leaf 0]).Ends := .stack 1 (by simpa using .leaf 0)
    rw [htree]
    exact .stack 2 (by simpa using hinner)
  have hstack : checkedHost.manager? 2 = some ⟨.stack, "qemu", {}, .stack [1]⟩ := rfl
  have hverify := verify_stack hstack rfl rfl hends
  refine ⟨(hverify _).1 rfl, ?_⟩
  have hentry : (Definition.guest [.supplied "stack" .unconfined, unreadableOwner]).findEntry
      Driver.stack.name = some (.supplied "stack" .unconfined) := rfl
  rw [(hverify _).2 (by simp [hentry])]
  rfl

/-- The stacks pass a domain that their one member refuses. -/
theorem stacks_pass_unreadableOwner :
    (checkedHost.perform 2 .verify (.guest [unreadableOwner])).1 = .ok () ∧
      (checkedHost.perform 1 .verify (.guest [unreadableOwner])).1 = .ok () ∧
      (checkedHost.perform 0 .verify (.guest [unreadableOwner])).1 =
        .error (.invalidLabel "dac" "nobody") :=
  ⟨rfl, rfl, rfl⟩

end Engine

end Confinement
