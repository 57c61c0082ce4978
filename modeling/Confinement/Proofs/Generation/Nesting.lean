import Confinement.Proofs.Generation.Run
import Confinement.Proofs.Manager.Cycles
import Confinement.Proofs.Manager.Leaves

/-!
# Generation over stacks of stacks

A generation has its steps for the managers nested directly in the one it is asked of. A stack that
is nested itself has one step of its own, for entries of its own model, and in that step the
managers below it only have their drivers asked. So the policies that count are those of the
directly nested managers, whatever the tree is like further down.
-/

namespace Confinement

/-- A finite tree of built-in stacks over managers whose drivers fill in their own entries. -/
inductive Engine.Composed (s : Engine) : Tree → Prop
  | leaf {id : ManagerId} {m : Manager} (found : s.manager? id = some m)
      (single : ∀ members, m.state ≠ .stack members) (fills : m.driver.FillsOwnEntry) :
      s.Composed (.leaf id)
  | stack {id : ManagerId} {m : Manager} {members : List Tree} (found : s.manager? id = some m)
      (driver : m.driver = .stack) (below : ∀ t ∈ members, s.Composed t) :
      s.Composed (.stack id members)

namespace Engine

variable {s : Engine} {id : ManagerId} {d : Definition}

theorem Composed.ends {t : Tree} (h : s.Composed t) : t.Ends := by
  induction h with
  | leaf found single fills => exact .leaf _
  | stack found driver below ih => exact .stack _ ih

/-- Whatever stacks it passes through, asking for labels changes labels only. -/
theorem Composed.sameButLabels_perform {t : Tree} (h : s.Composed t) (st : Stage)
    (hr : s.SameRoles st.engine) :
    st.definition.SameButLabels (t.perform .generate st).2.definition := by
  induction h generalizing st with
  | @leaf id m hm hsingle hf =>
    obtain ⟨m', hm', hrole⟩ := hr.manager hm
    have hf' : m'.driver.FillsOwnEntry := Manager.driver_of_role hrole ▸ hf
    have hrel := relabelled_edit_generate hm' hf' st.definition
    rw [edit_of_members?_none hm' (Manager.members?_of_ne hf'.single)] at hrel
    rw [Tree.perform]
    exact hrel.sameButLabels
  | @stack id m members hm hd hbelow ih =>
    obtain ⟨m', hm', hrole⟩ := hr.manager hm
    have hd' : m'.driver = .stack := (Manager.driver_of_role hrole).trans hd
    have hc : st.concerns .generate m' = true := by simp [Stage.concerns]
    have hall := Tree.performAll_induction
      (R := fun st st' => s.SameRoles st.engine →
        s.SameRoles st'.engine ∧ st.definition.SameButLabels st'.definition)
      (fun st hr => ⟨hr, .refl st.definition⟩)
      (fun h h' hr => ⟨(h' (h hr).1).1, (h hr).2.trans (h' (h hr).1).2⟩)
      (fun t ht st hr => ⟨hr.trans (t.sameRoles_perform .generate st), ih t ht st hr⟩)
      (st.record id .stack .generate)
    rw [Tree.perform, visit_stack hm' hd', if_pos hc]
    exact (hall (hr.trans (.record ..))).2

theorem id_treeWithin (s : Engine) (depth : Nat) (n : ManagerId) :
    (s.treeWithin depth n).id = n := by
  cases depth with
  | zero => rfl
  | succ depth =>
    rw [treeWithin]
    cases (s.manager? n).bind (·.members?) <;> rfl

theorem Composed.manager {t : Tree} (h : s.Composed t) : ∃ m, s.manager? t.id = some m := by
  cases h with
  | leaf found single fills => exact ⟨_, found⟩
  | stack found driver below => exact ⟨_, found⟩

theorem Composed.manager_tree {n : ManagerId} (h : s.Composed (s.tree n)) :
    ∃ m, s.manager? n = some m := by
  have hm := h.manager
  rwa [tree, id_treeWithin] at hm

theorem nested_of_members? {m : Manager} {members : List ManagerId}
    (hm : s.manager? id = some m) (hmem : m.members? = some members) : s.nested id = members := by
  have hstate := Manager.state_of_members? hmem
  obtain ⟨driver, virtDriver, policy, state⟩ := m
  obtain rfl : state = .stack members := hstate
  simp only [nested, hm]

/-- The managers that a finite tree has to satisfy have finite trees themselves. -/
theorem Composed.nested (h : s.Composed (s.tree id)) :
    ∀ n ∈ s.nested id, s.Composed (s.tree n) := by
  obtain ⟨m, hm⟩ := h.manager_tree
  cases hmem : m.members? with
  | none =>
    have hleaf := h
    rw [tree_of_members?_none hm hmem] at hleaf
    cases hleaf with
    | @leaf _ m' hm' hsingle hf =>
      have hself : s.nested id = [id] := by
        obtain ⟨driver, virtDriver, policy, state⟩ := m'
        unfold Engine.nested
        rw [hm']
        cases state with
        | stack members => exact absurd rfl (hsingle members)
        | _ => rfl
      intro n hn
      rw [hself, List.mem_singleton] at hn
      rwa [hn]
  | some members =>
    rw [nested_of_members? hm hmem]
    have hstack := h
    rw [(tree_of_ends h.ends hm hmem).1] at hstack
    intro n hn
    cases hstack with
    | stack found driver below => exact below _ (List.mem_map_of_mem hn)

/-! ### What a step does for confinement -/

/-- What is confined stays so, what a manager requires is done, and nothing is added for models
of other managers. -/
structure Honours (m : Manager) (d d' : Definition) : Prop where
  keeps : ∀ model, d.Confines model → d'.Confines model
  required : m.policy.requireConfined = true → d'.Confines m.driver.name
  foreign : ∀ model, model ≠ m.driver.name → d.findEntry model = none → d'.findEntry model = none

/-- To prepare a definition for a manager does no harm to what is confined. -/
theorem confines_prepared (p : Policy) (model : String) {d : Definition} {other : String}
    (h : d.Confines other) : (p.prepared model d).Confines other := by
  obtain ⟨e, he, ht⟩ := h
  by_cases ho : other = model
  · subst ho
    have hdecided : e.type ≠ .undecided := by
      rcases ht with ht | ht <;> rw [ht] <;> decide
    refine ⟨e, ?_, ht⟩
    rw [p.findEntry_prepared, Policy.entryFor, he, Option.getD_some, Policy.settle_of_ne hdecided]
  · refine ⟨e, ?_, ht⟩
    rw [p.findEntry_prepared_of_ne ho, he]

/-- A step that succeeds honours the manager's policy, whether the manager is a stack or not. -/
theorem honours_generateOne {st : Stage} {m : Manager} (hr : s.SameRoles st.engine)
    (ht : s.Composed (s.tree id)) (hm : st.engine.manager? id = some m)
    (hok : (generateOne id st).1 = .ok ()) :
    Honours m st.definition (generateOne id st).2.definition := by
  rcases generateOne_cases hm with
    ⟨hg, -⟩ | ⟨hg, hn, -, hopt, -⟩ | ⟨ha, -, undo, hg, -⟩
  · rw [hg] at hok
    cases hok
  · rw [hg]
    refine ⟨fun _ h => h, ?_, fun _ _ h => h⟩
    intro hreq
    rw [hopt] at hreq
    cases hreq
  · have hsame : (m.policy.prepared m.driver.name st.definition).SameButLabels
        (generateOne id st).2.definition := by
      have hperform := ht.sameButLabels_perform
        ⟨st.engine, m.policy.prepared m.driver.name st.definition⟩ hr
      rw [← hr.tree id] at hperform
      rw [hg] at hok ⊢
      cases hout : edit id .generate
          ⟨st.engine, m.policy.prepared m.driver.name st.definition⟩ with
      | mk r out =>
        rw [hout] at hok
        cases r with
        | ok u =>
          rw [edit] at hout
          rwa [hout] at hperform
        | error e => cases hok
    refine ⟨?_, ?_, ?_⟩
    · intro model h
      exact hsame.confines (confines_prepared m.policy m.driver.name h)
    · intro hreq
      exact hsame.confines ⟨_, m.policy.findEntry_prepared m.driver.name st.definition,
        Policy.Allows.confined ha hreq⟩
    · intro model hne h
      refine hsame.findEntry_eq_none ?_
      rwa [m.policy.findEntry_prepared_of_ne hne]

/-- A run that succeeds honours the policies of all of its managers. -/
theorem honours_generateEach {ids : List ManagerId} {st st' : Stage} (hr : s.SameRoles st.engine)
    (hs : ∀ n ∈ ids, s.Composed (s.tree n)) (h : generateEach ids st = (.ok (), st')) :
    (∀ model, st.definition.Confines model → st'.definition.Confines model) ∧
    (∀ n ∈ ids, ∀ m, s.manager? n = some m → m.policy.requireConfined = true →
      st'.definition.Confines m.driver.name) ∧
    (∀ model, (∀ n ∈ ids, ∀ m, s.manager? n = some m → m.driver.name ≠ model) →
      st.definition.findEntry model = none → st'.definition.findEntry model = none) := by
  induction ids generalizing st with
  | nil =>
    obtain ⟨-, rfl⟩ := Prod.mk.inj h
    exact ⟨fun _ h => h, fun _ hn => absurd hn List.not_mem_nil, fun _ _ h => h⟩
  | cons n ids ih =>
    obtain ⟨hok, hrest⟩ := generateEach_cons_ok h
    have ht := hs n (List.mem_cons_self ..)
    obtain ⟨m, hm⟩ := ht.manager_tree
    obtain ⟨m', hm', hrole⟩ := hr.manager hm
    have hstep := honours_generateOne hr ht hm' hok
    obtain ⟨hkeeps, hrequired, hforeign⟩ := ih (hr.trans (sameRoles_generateOne n st))
      (fun k hk => hs k (List.mem_cons_of_mem n hk)) hrest
    refine ⟨fun model h => hkeeps model (hstep.keeps model h), ?_, ?_⟩
    · intro k hk mk hmk hreq
      rcases List.mem_cons.mp hk with rfl | hk
      · obtain rfl : mk = m := Option.some.inj (hmk.symm.trans hm)
        rw [← Manager.policy_of_role hrole] at hreq
        rw [← Manager.driver_of_role hrole]
        exact hkeeps _ (hstep.required hreq)
      · exact hrequired k hk mk hmk hreq
    · intro model hne hn
      have hother : model ≠ m'.driver.name := by
        rw [Manager.driver_of_role hrole]
        exact (hne n (List.mem_cons_self ..) m hm).symm
      exact hforeign model (fun k hk => hne k (List.mem_cons_of_mem n hk))
        (hstep.foreign model hother hn)

/-! ### Whose requirements count -/

/-- A generation that succeeds leaves the domain confined by every directly nested manager that
requires it. A manager further down whose model none of these has ends up without an entry. -/
theorem generateLabels_honours_nested {st' : Stage} (ht : s.Composed (s.tree id))
    (h : generateLabels id ⟨s, d⟩ = (.ok (), st')) :
    (∀ n ∈ s.nested id, ∀ m, s.manager? n = some m → m.policy.requireConfined = true →
      st'.definition.Confines m.driver.name) ∧
    ∀ leaf ∈ (s.tree id).leaves, ∀ m, s.manager? leaf = some m →
      (∀ n ∈ s.nested id, ∀ m', s.manager? n = some m' → m'.driver.name ≠ m.driver.name) →
        st'.definition.findEntry m.driver.name = none := by
  rcases generateLabels_cases s id d with ⟨_, _, _, _, _, hg⟩ | ⟨hknown, hg⟩
  · rw [hg] at h
    cases h
  · rw [hg] at h
    obtain ⟨-, hrequired, hforeign⟩ := honours_generateEach (.refl s) ht.nested h
    refine ⟨hrequired, ?_⟩
    intro leaf hleaf m hm hne
    refine hforeign m.driver.name hne ?_
    refine Definition.findEntry_eq_none_iff.mpr fun e he hmodel => ?_
    obtain ⟨n, hn, m', hm', hname⟩ := hknown e he m.driver.name hmodel
    exact hne n hn m' hm' hname

/-- A stack of ownership and of a stack over the manager that labels nothing. -/
def branchedHost : Engine where
  managers :=
    [some ⟨.dac, "qemu", { defaultConfined := true, requireConfined := true }, .dac {}⟩,
     some ⟨.none, "qemu", { requireConfined := true }, .none⟩,
     some ⟨.stack, "qemu", { defaultConfined := true }, .stack [1]⟩,
     some ⟨.stack, "qemu", {}, .stack [0, 2]⟩]
  held := [3]

/-- Ownership is nested directly and has its entry. The manager in the inner stack has none. -/
theorem generated_branchedHost :
    (generateLabels 3 ⟨branchedHost, .guest []⟩).2.definition.Confines "dac" ∧
      (generateLabels 3 ⟨branchedHost, .guest []⟩).2.definition.findEntry "none" = none := by
  have htree : branchedHost.tree 3 = .stack 3 [.leaf 0, .stack 2 [.leaf 1]] := rfl
  have ht : branchedHost.Composed (branchedHost.tree 3) := by
    have hdac : branchedHost.Composed (.leaf 0) :=
      .leaf rfl (fun _ h => by cases h)
        (Driver.fillsOwnEntry_of_mem_workers (by simp [Driver.workers]))
    have hnone : branchedHost.Composed (.leaf 1) :=
      .leaf rfl (fun _ h => by cases h)
        (Driver.fillsOwnEntry_of_mem_workers (by simp [Driver.workers]))
    have hinner : branchedHost.Composed (.stack 2 [.leaf 1]) :=
      .stack rfl rfl (by simpa using hnone)
    rw [htree]
    exact .stack rfl rfl (by simpa using ⟨hdac, hinner⟩)
  have h : generateLabels 3 ⟨branchedHost, .guest []⟩ =
      (.ok (), (generateLabels 3 ⟨branchedHost, .guest []⟩).2) := by rfl
  obtain ⟨hrequired, hforeign⟩ := generateLabels_honours_nested ht h
  have hleaf : 1 ∈ (branchedHost.tree 3).leaves := by
    rw [htree]
    simp
  refine ⟨hrequired 0 (by decide) _ rfl rfl, hforeign 1 hleaf _ rfl ?_⟩
  intro n hn m hm
  have hn : n ∈ [0, 2] := hn
  simp only [List.mem_cons, List.not_mem_nil, or_false] at hn
  rcases hn with rfl | rfl
  · obtain rfl := Option.some.inj hm
    decide
  · obtain rfl := Option.some.inj hm
    decide

/-- A manager that requires confinement, in a stack in a stack. -/
def deepStack : Run ManagerId := do
  let leaf ← openManager .selinux "qemu" { defaultConfined := true, requireConfined := true }
  let inner ← openStack leaf
  openStack inner

/-- The host on which the stacks have been opened. -/
def deepHost : Engine := (deepStack.eval {}).2

/-- A driver that takes all entries away. -/
def eraser : Driver where
  name := "eraser"
  technology := .none
  initial := .none
  available _ := true
  hooks := {
    perform := fun _ op d =>
      if op = .generate then some (.ok (), { d with entries := [] }) else none }

/-- A stack of ownership, which requires confinement, and of the eraser. -/
def erasedHost : Engine where
  managers :=
    [some ⟨.dac, "qemu", { defaultConfined := true, requireConfined := true }, .dac {}⟩,
     some ⟨eraser, "qemu", { defaultConfined := true }, .none⟩,
     some ⟨.stack, "qemu", {}, .stack [0, 1]⟩]
  held := [2]

/-- Below a nested stack a requirement is not met, and the generation succeeds all the same. In a
stack of drivers that write to more than their own entries not even a direct one is. -/
theorem requirements_may_be_unmet :
    ((deepStack.eval {}).1 = .ok 2 ∧ deepHost.Composed (deepHost.tree 2) ∧
      (generateLabels 2 ⟨deepHost, .guest []⟩).1 = .ok () ∧
      ∃ leaf ∈ (deepHost.tree 2).leaves, ∃ m, deepHost.manager? leaf = some m ∧
        m.policy.requireConfined = true ∧
        ¬(generateLabels 2 ⟨deepHost, .guest []⟩).2.definition.Confines m.driver.name) ∧
    (generateLabels 2 ⟨erasedHost, .guest []⟩).1 = .ok () ∧
      ∃ leaf ∈ erasedHost.nested 2, ∃ m, erasedHost.manager? leaf = some m ∧
        m.policy.requireConfined = true ∧
        ¬(generateLabels 2 ⟨erasedHost, .guest []⟩).2.definition.Confines m.driver.name := by
  have hunmet : ∀ (d : Definition) (model : String), d.findEntry model = none →
      ¬d.Confines model := by
    rintro d model hnone ⟨e, he, -⟩
    rw [hnone] at he
    cases he
  have htree : deepHost.tree 2 = .stack 2 [.stack 1 [.leaf 0]] := rfl
  have hleaf : deepHost.Composed (.leaf 0) :=
    .leaf rfl (fun _ h => by cases h)
      (Driver.fillsOwnEntry_of_mem_workers (by simp [Driver.workers]))
  have hinner : deepHost.Composed (.stack 1 [.leaf 0]) := .stack rfl rfl (by simpa using hleaf)
  have houter : deepHost.Composed (.stack 2 [.stack 1 [.leaf 0]]) :=
    .stack rfl rfl (by simpa using hinner)
  have hleaves : 0 ∈ (deepHost.tree 2).leaves := by
    rw [htree]
    simp
  refine ⟨⟨rfl, htree ▸ houter, rfl, 0, hleaves, _, rfl, rfl, hunmet _ _ rfl⟩, ?_⟩
  exact ⟨rfl, 0, by decide, _, rfl, rfl, hunmet _ _ rfl⟩

end Engine

end Confinement
