import Confinement.Proofs.Definition.Entries
import Confinement.Proofs.Manager.Leaves

/-!
# Fanning out

An operation that is asked of a stack is carried out by every leaf below it, once for each place
that the leaf has in the tree, from left to right and whatever fails on the way. The first failure
is reported. A question goes to the leftmost leaf and to no other. So it does not matter how the
leaves are grouped into stacks.
-/

namespace Confinement

/-- The first failure among several results, or success. -/
def firstFailureOf (rs : List (Except Error Unit)) : Except Error Unit :=
  rs.foldr firstFailure (.ok ())

@[simp] theorem firstFailure_ok_right (r : Except Error Unit) : firstFailure r (.ok ()) = r := by
  cases r <;> rfl

theorem firstFailureOf_cons (r : Except Error Unit) (rs : List (Except Error Unit)) :
    firstFailureOf (r :: rs) = firstFailure r (firstFailureOf rs) := rfl

theorem firstFailureOf_append (rs rs' : List (Except Error Unit)) :
    firstFailureOf (rs ++ rs') = firstFailure (firstFailureOf rs) (firstFailureOf rs') := by
  induction rs with
  | nil => rfl
  | cons r rs ih =>
    rw [List.cons_append, firstFailureOf_cons, ih, firstFailureOf_cons, firstFailure_assoc]

/-- What the driver does on its own does not depend on calls to stacks, of which it is not told. -/
structure Driver.IgnoresStacks (dr : Driver) : Prop where
  perform : ∀ (calls : List Call) (op : Operation) (d : Definition),
    dr.hooks.perform calls op d = dr.hooks.perform (calls.filter (!·.toStack)) op d
  answer : ∀ (calls : List Call) (q : Question) (d : Definition),
    dr.hooks.answer calls q d = dr.hooks.answer (calls.filter (!·.toStack)) q d

open Engine (SameRoles manager_eq_ok_iff)

namespace Stage

/-- The stage with no note of a call to a stack. -/
def withoutStackCalls (st : Stage) : Stage := { st with engine := st.engine.withoutStackCalls }

/-- The managers carry out an operation one after the other, each on what the one before it has
left, calls to stacks apart. The results are theirs, in order. -/
inductive Visits (op : Operation) :
    List ManagerId → Stage → List (Except Error Unit) → Stage → Prop
  | nil {st st' : Stage} (same : st.withoutStackCalls = st'.withoutStackCalls) :
      Visits op [] st [] st'
  | cons {id : ManagerId} {ids : List ManagerId} {st here st' : Stage}
      {rs : List (Except Error Unit)} (same : st.withoutStackCalls = here.withoutStackCalls)
      (rest : Visits op ids (here.visit op id none).2 rs st') :
      Visits op (id :: ids) st ((here.visit op id none).1 :: rs) st'

variable {op : Operation} {ids ids' : List ManagerId} {rs rs' : List (Except Error Unit)}
  {s : Engine} {st st' st'' : Stage} {id : ManagerId} {m : Manager}

theorem Visits.single (op : Operation) (id : ManagerId) (st : Stage) :
    Visits op [id] st [(st.visit op id none).1] (st.visit op id none).2 :=
  .cons rfl (.nil rfl)

theorem Visits.of_same (hs : st.withoutStackCalls = st'.withoutStackCalls)
    (h : Visits op ids st' rs st'') : Visits op ids st rs st'' := by
  cases h with
  | nil same => exact .nil (hs.trans same)
  | cons same rest => exact .cons (hs.trans same) rest

theorem Visits.append (h : Visits op ids st rs st') (h' : Visits op ids' st' rs' st'') :
    Visits op (ids ++ ids') st (rs ++ rs') st'' := by
  induction h with
  | nil same => exact h'.of_same same
  | cons same rest ih => exact .cons same (ih h')

/-- A leaf has its driver called once. -/
theorem log_visit (hm : st.engine.manager? id = some m) (hd : m.driver.isStack = false)
    (hop : op ≠ .verify) :
    (st.visit op id none).2.engine.log =
      st.engine.log ++ [⟨m.driver.name, m.driver.builtIn, some id, .operation op⟩] := by
  have hc : st.concerns op m = true := by simp [concerns, hop]
  have hnoted : (st.record id m.driver op).engine.log =
      st.engine.log ++ [⟨m.driver.name, m.driver.builtIn, some id, .operation op⟩] :=
    Engine.log_record hd st.engine id (.operation op)
  rw [visit, manager_eq_ok_iff.mpr hm]
  simp only [hc, Bool.true_eq_false, if_false]
  split
  · rw [engine_redefine, hnoted]
  · rw [← hnoted]
    simp only [Engine.log, Engine.withoutStackCalls, trace_leave]

/-- Every manager of the list has its driver called, in order, once for each place in the list. -/
theorem Visits.log (h : Visits op ids st rs st') (hr : s.SameRoles st.engine)
    (hw : ∀ n ∈ ids, ∃ m, s.manager? n = some m ∧ m.driver.isStack = false)
    (hop : op ≠ .verify) :
    st'.engine.log = st.engine.log ++ s.callsTo (.operation op) ids := by
  induction h with
  | nil same =>
    rw [Engine.callsTo_nil, List.append_nil]
    exact Engine.log_congr (congrArg Stage.engine same.symm)
  | @cons id ids st here st' rs same rest ih =>
    have hsame := congrArg Stage.engine same
    obtain ⟨m, hm, hd⟩ := hw id (List.mem_cons_self ..)
    have hr' : s.SameRoles here.engine := hr.trans (.of_withoutStackCalls hsame)
    obtain ⟨m', hm', hrole⟩ := hr'.manager hm
    have hdriver := Manager.driver_of_role hrole
    have hlog := log_visit hm' (hdriver ▸ hd) hop
    rw [ih (hr'.trans (sameRoles_visit op id here fun _ hf => by cases hf))
      fun n hn => hw n (List.mem_cons_of_mem id hn), hlog, hdriver,
      Engine.callsTo_cons hm, Engine.log_congr hsame.symm, List.append_assoc]
    rfl

/-! ### Grouping makes no difference -/

theorem withoutStackCalls_redefine (st : Stage) (op : Operation) (d : Definition) :
    (st.redefine op d).withoutStackCalls = st.withoutStackCalls.redefine op d := by
  unfold redefine
  split <;> rfl

theorem withoutStackCalls_leave (st : Stage) (id : ManagerId) (m : Manager) (op : Operation)
    (sc : Scene) :
    (st.leave id m op sc).withoutStackCalls = st.withoutStackCalls.leave id m op sc :=
  withoutStackCalls_redefine ..

/-- What a manager does whose driver ignores stacks does not depend on calls to them. -/
theorem visit_withoutStackCalls (hm : st.engine.manager? id = some m)
    (hi : m.driver.IgnoresStacks) (op : Operation) :
    (st.withoutStackCalls.visit op id none).1 = (st.visit op id none).1 ∧
    (st.withoutStackCalls.visit op id none).2.withoutStackCalls =
      (st.visit op id none).2.withoutStackCalls := by
  have hm' : st.withoutStackCalls.engine.manager? id = some m := hm
  have hnoted : (st.withoutStackCalls.record id m.driver op).withoutStackCalls =
      (st.record id m.driver op).withoutStackCalls := by
    simp [withoutStackCalls, record, Engine.record, Engine.withoutStackCalls, List.filter_cons]
  have hhooks : m.driver.hooks.perform st.withoutStackCalls.engine.trace op
      st.withoutStackCalls.definition = m.driver.hooks.perform st.engine.trace op st.definition :=
    (hi.perform st.engine.trace op st.definition).symm
  have hconcerns : st.withoutStackCalls.concerns op m = st.concerns op m := rfl
  rw [visit, visit, manager_eq_ok_iff.mpr hm, manager_eq_ok_iff.mpr hm']
  simp only [hconcerns, hhooks]
  split
  · exact ⟨rfl, congrArg (Stage.mk · st.definition) st.engine.withoutStackCalls_idem⟩
  · split
    · simp only [withoutStackCalls_redefine, hnoted, and_self]
    · simp only [withoutStackCalls_leave, hnoted]
      exact ⟨rfl, rfl⟩

theorem visit_congr (h : st.withoutStackCalls = st'.withoutStackCalls)
    (hm : st.engine.manager? id = some m) (hi : m.driver.IgnoresStacks) (op : Operation) :
    (st.visit op id none).1 = (st'.visit op id none).1 ∧
    (st.visit op id none).2.withoutStackCalls = (st'.visit op id none).2.withoutStackCalls := by
  have hm' : st'.engine.manager? id = some m := by
    rw [← Engine.manager?_congr (congrArg Stage.engine h) id, hm]
  obtain ⟨hr, hst⟩ := visit_withoutStackCalls hm hi op
  obtain ⟨hr', hst'⟩ := visit_withoutStackCalls hm' hi op
  rw [h] at hr hst
  exact ⟨hr.symm.trans hr', hst.symm.trans hst'⟩

/-- Managers whose drivers ignore stacks do the same wherever in a tree they are. -/
theorem Visits.unique (h : Visits op ids st rs st') {here out : Stage}
    {rs' : List (Except Error Unit)} (h' : Visits op ids here rs' out)
    (hsame : st.withoutStackCalls = here.withoutStackCalls) (hr : s.SameRoles st.engine)
    (hi : ∀ n ∈ ids, ∃ m, s.manager? n = some m ∧ m.driver.IgnoresStacks) :
    rs = rs' ∧ st'.withoutStackCalls = out.withoutStackCalls := by
  induction h generalizing here rs' with
  | nil same =>
    cases h' with
    | nil same' => exact ⟨rfl, same.symm.trans (hsame.trans same')⟩
  | @cons id ids st first st' rs same rest ih =>
    cases h' with
    | @cons _ _ _ first' _ rs' same' rest' =>
      have hfirst := same.symm.trans (hsame.trans same')
      have hr' := hr.trans (.of_withoutStackCalls (congrArg Stage.engine same))
      obtain ⟨m, hm, hignores⟩ := hi id (List.mem_cons_self ..)
      obtain ⟨m', hm', hrole⟩ := hr'.manager hm
      obtain ⟨hresult, hleft⟩ :=
        visit_congr hfirst hm' (Manager.driver_of_role hrole ▸ hignores) op
      obtain ⟨hrs, hout⟩ := ih rest' hleft
        (hr'.trans (sameRoles_visit op id first fun _ hf => by cases hf))
        fun n hn => hi n (List.mem_cons_of_mem id hn)
      exact ⟨by rw [hresult, hrs], hout⟩

end Stage

/-! ### Trees of stacks -/

namespace Engine

variable {s : Engine} {id : ManagerId} {d : Definition} {op : Operation} {t : Tree}

/-- What every member of a stack has its leaves do, all members have all leaves do. -/
theorem visits_performAll {ts : List Tree}
    (hts : ∀ t ∈ ts, ∀ st : Stage, s.SameRoles st.engine → ∃ rs,
      Stage.Visits op t.leaves st rs (t.perform op st).2 ∧
      (t.perform op st).1 = firstFailureOf rs)
    {st : Stage} (hr : s.SameRoles st.engine) :
    ∃ rs, Stage.Visits op (ts.flatMap Tree.leaves) st rs (Tree.performAll op ts st).2 ∧
      (Tree.performAll op ts st).1 = firstFailureOf rs := by
  induction ts generalizing st with
  | nil =>
    rw [Tree.performAll_nil]
    exact ⟨[], .nil rfl, rfl⟩
  | cons t ts ih =>
    obtain ⟨rs, hv, he⟩ := hts t (List.mem_cons_self ..) st hr
    obtain ⟨rs', hv', he'⟩ := ih (fun t' ht' => hts t' (List.mem_cons_of_mem t ht'))
      (hr.trans (t.sameRoles_perform op st))
    refine ⟨rs ++ rs', ?_, ?_⟩
    · rw [List.flatMap_cons, Tree.performAll]
      exact hv.append hv'
    · rw [Tree.performAll, firstFailureOf_append, ← he, ← he']

/-- Whatever the tree, its leaves carry the operation out, from left to right. -/
theorem Stacked.visits (h : s.Stacked t) (hop : op ≠ .verify) {st : Stage}
    (hr : s.SameRoles st.engine) :
    ∃ rs, Stage.Visits op t.leaves st rs (t.perform op st).2 ∧
      (t.perform op st).1 = firstFailureOf rs := by
  induction h generalizing st with
  | @leaf id m found other =>
    rw [Tree.leaves_leaf, Tree.perform]
    exact ⟨_, .single op id st, (firstFailure_ok_right _).symm⟩
  | @stack id m members found driver below ih =>
    obtain ⟨m', hm', hrole⟩ := hr.manager found
    have hc : st.concerns op m' = true := by simp [Stage.concerns, hop]
    have hsame : st.withoutStackCalls = (st.record id .stack op).withoutStackCalls := by
      unfold Stage.withoutStackCalls Stage.record
      rw [withoutStackCalls_record_stack rfl]
    have hnoted : s.SameRoles (st.record id .stack op).engine := hr.trans (.record ..)
    obtain ⟨rs, hv, he⟩ := visits_performAll (fun t ht st hr => ih t ht hr) hnoted
    rw [Tree.leaves_stack, Tree.perform,
      visit_stack hm' ((Manager.driver_of_role hrole).trans driver), if_pos hc]
    exact ⟨rs, hv.of_same hsame, he⟩

/-- The first of the leaves is asked, and the engine is the same for it but for calls to stacks. -/
theorem Stacked.ask (h : s.Stacked t) (hn : t.NoEmptyStack) (q : Question) (d : Definition)
    {u : Engine} (hu : u.withoutStackCalls = s.withoutStackCalls) :
    ∃ leaf, ∃ here : Engine, t.leaves.head? = some leaf ∧
      here.withoutStackCalls = s.withoutStackCalls ∧ t.ask q d u = here.consult q d leaf none := by
  induction h generalizing u with
  | @leaf id m found other =>
    rw [Tree.ask]
    exact ⟨id, u, by simp, hu, rfl⟩
  | @stack id m members found driver below ih =>
    cases hn with
    | stack _ occupied hmembers =>
      cases members with
      | nil => exact absurd rfl occupied
      | cons t ts =>
        have hm' : u.manager? id = some m := by rw [manager?_congr hu, found]
        have hnoted : (u.record id .stack (.question q)).withoutStackCalls =
            s.withoutStackCalls := by
          rw [withoutStackCalls_record_stack rfl, hu]
        obtain ⟨leaf, here, hleaf, hhere, hask⟩ :=
          ih t (List.mem_cons_self ..) (hmembers t (List.mem_cons_self ..)) hnoted
        refine ⟨leaf, here, ?_, hhere, ?_⟩
        · rw [Tree.leaves_stack, List.flatMap_cons, List.head?_append, hleaf, Option.some_or]
        · rw [Tree.ask, consult_stack hm' driver, hask]

/-- A leaf has its driver asked once. -/
theorem log_consult {m : Manager} (hm : s.manager? id = some m) (hd : m.driver.isStack = false)
    (q : Question) (d : Definition) :
    (s.consult q d id none).2.log = s.log ++ s.callsTo (.question q) [id] := by
  rw [callsTo_cons hm, callsTo_nil, ← log_record hd, consult, manager_eq_ok_iff.mpr hm]
  dsimp only
  split <;> rfl

theorem consult_congr {u : Engine} {m : Manager} (h : u.withoutStackCalls = s.withoutStackCalls)
    (hm : s.manager? id = some m) (hi : m.driver.IgnoresStacks) (q : Question) (d : Definition) :
    (u.consult q d id none).1 = (s.consult q d id none).1 := by
  have hm' : u.manager? id = some m := by rw [manager?_congr h, hm]
  have hhooks : m.driver.hooks.answer u.trace q d = m.driver.hooks.answer s.trace q d := by
    rw [hi.answer u.trace, hi.answer s.trace]
    exact congrArg (fun v => m.driver.hooks.answer v.trace q d) h
  have hhost : u.host = s.host := congrArg (fun v => v.host) h
  simp only [consult, manager_eq_ok_iff.mpr hm, manager_eq_ok_iff.mpr hm', hhooks, hhost]
  split <;> rfl

/-- An operation is carried out by every leaf, in order, on what the leaf before it has left, and
fails as the first of them that fails. A question is the leftmost leaf's, and nobody else's. And so
another grouping of the same leaves makes no difference, to drivers that are not told of stacks. -/
theorem stacks_are_transparent (ht : s.Stacked (s.tree id)) :
    (∀ op, op ≠ .verify → ∃ rs,
      Stage.Visits op (s.tree id).leaves ⟨s, d⟩ rs (edit id op ⟨s, d⟩).2 ∧
      (edit id op ⟨s, d⟩).1 = firstFailureOf rs ∧
      (edit id op ⟨s, d⟩).2.engine.log =
        s.log ++ s.callsTo (.operation op) (s.tree id).leaves) ∧
    ((s.tree id).NoEmptyStack → ∀ q, ∃ leaf, ∃ here : Engine,
      (s.tree id).leaves.head? = some leaf ∧ here.withoutStackCalls = s.withoutStackCalls ∧
      ask id q d s = here.consult q d leaf none ∧
      (ask id q d s).2.log = s.log ++ s.callsTo (.question q) [leaf]) ∧
    ∀ other, s.Stacked (s.tree other) → (s.tree other).leaves = (s.tree id).leaves →
      (∀ n ∈ (s.tree id).leaves, ∃ m, s.manager? n = some m ∧ m.driver.IgnoresStacks) →
      (∀ op, op ≠ .verify → (edit other op ⟨s, d⟩).1 = (edit id op ⟨s, d⟩).1 ∧
        (edit other op ⟨s, d⟩).2.withoutStackCalls = (edit id op ⟨s, d⟩).2.withoutStackCalls) ∧
      ((s.tree id).NoEmptyStack → (s.tree other).NoEmptyStack → ∀ q,
        (ask other q d s).1 = (ask id q d s).1) := by
  have hstart : s.SameRoles (Stage.mk s d).engine := .refl s
  refine ⟨?_, ?_, ?_⟩
  · intro op hop
    obtain ⟨rs, hv, he⟩ := ht.visits hop hstart
    exact ⟨rs, hv, he, hv.log hstart ht.worker hop⟩
  · intro hn q
    obtain ⟨leaf, here, hleaf, hhere, hask⟩ := ht.ask hn q d rfl
    obtain ⟨m, hm, hd⟩ := ht.worker leaf (List.mem_of_head? hleaf)
    have hm' : here.manager? leaf = some m := by rw [manager?_congr hhere, hm]
    refine ⟨leaf, here, hleaf, hhere, hask, ?_⟩
    have hlog := log_consult hm' hd q d
    rw [Engine.ask, hask, hlog, log_congr hhere, callsTo_cons hm, callsTo_cons hm']
    rfl
  · intro other hto hleaves hi
    refine ⟨?_, ?_⟩
    · intro op hop
      obtain ⟨rs, hv, he⟩ := ht.visits hop hstart
      obtain ⟨rs', hv', he'⟩ := hto.visits hop hstart
      rw [hleaves] at hv'
      obtain ⟨hrs, hst⟩ := hv'.unique hv rfl hstart hi
      exact ⟨by rw [edit, edit, he, he', hrs], hst⟩
    · intro hn hn' q
      obtain ⟨leaf, here, hleaf, hhere, hask⟩ := ht.ask hn q d rfl
      obtain ⟨leaf', here', hleaf', hhere', hask'⟩ := hto.ask hn' q d rfl
      obtain rfl : leaf' = leaf := by
        rw [hleaves, hleaf] at hleaf'
        exact (Option.some.inj hleaf').symm
      obtain ⟨m, hm, hignores⟩ := hi leaf' (List.mem_of_head? hleaf)
      rw [Engine.ask, Engine.ask, hask, hask', consult_congr hhere hm hignores,
        consult_congr hhere' hm hignores]

/-- A driver that fails at every operation. -/
def refuser : Driver where
  name := "refuser"
  technology := .bare
  initial := .none
  available _ := true
  hooks := {
    perform := fun _ op d =>
      some (.error (.driver "refuser" (.other (op.name ++ " failed"))), d) }

theorem refuser_ignoresStacks : refuser.IgnoresStacks := ⟨fun _ _ _ => rfl, fun _ _ _ => rfl⟩

theorem dac_ignoresStacks : Driver.dac.IgnoresStacks := ⟨fun _ _ _ => rfl, fun _ _ _ => rfl⟩

/-- Ownership and the refuser, each of them twice, in a stack of stacks and in a flat one. -/
def groupedHost : Engine where
  managers :=
    [some ⟨.dac, "qemu", {}, .dac {}⟩,
     some ⟨refuser, "qemu", {}, .none⟩,
     some ⟨.stack, "qemu", {}, .stack [1, 0]⟩,
     some ⟨.stack, "qemu", {}, .stack [0, 2, 1]⟩,
     some ⟨.stack, "qemu", {}, .stack [0, 1, 0, 1]⟩]
  held := [3, 4]

/-- After the refuser's first failure the others still have their turns, in either stack. -/
theorem transparent_groupedHost :
    (edit 3 .setSocket ⟨groupedHost, .guest []⟩).1 =
        .error (.driver "refuser" (.other "set_socket_label failed")) ∧
      (edit 3 .setSocket ⟨groupedHost, .guest []⟩).2.engine.log.map (·.manager) =
        [some 0, some 1, some 0, some 1] ∧
      (edit 4 .setSocket ⟨groupedHost, .guest []⟩).1 =
        (edit 3 .setSocket ⟨groupedHost, .guest []⟩).1 ∧
      (ask 4 .model (.guest []) groupedHost).1 = (ask 3 .model (.guest []) groupedHost).1 := by
  have hnested : groupedHost.tree 3 =
      .stack 3 [.leaf 0, .stack 2 [.leaf 1, .leaf 0], .leaf 1] := rfl
  have hflat : groupedHost.tree 4 = .stack 4 [.leaf 0, .leaf 1, .leaf 0, .leaf 1] := rfl
  have hdac : groupedHost.Stacked (.leaf 0) := .leaf rfl rfl
  have hrefuser : groupedHost.Stacked (.leaf 1) := .leaf rfl rfl
  have hinner : groupedHost.Stacked (.stack 2 [.leaf 1, .leaf 0]) :=
    .stack rfl rfl (by simpa using ⟨hrefuser, hdac⟩)
  have ht : groupedHost.Stacked (groupedHost.tree 3) := by
    rw [hnested]
    exact .stack rfl rfl (by simpa using ⟨hdac, hinner, hrefuser⟩)
  have ht' : groupedHost.Stacked (groupedHost.tree 4) := by
    rw [hflat]
    exact .stack rfl rfl (by simpa using ⟨hdac, hrefuser, hdac, hrefuser⟩)
  have hleaves : (groupedHost.tree 3).leaves = [0, 1, 0, 1] := by
    rw [hnested]
    simp
  have hleaves' : (groupedHost.tree 4).leaves = (groupedHost.tree 3).leaves := by
    rw [hleaves, hflat]
    simp
  have hi : ∀ n ∈ (groupedHost.tree 3).leaves,
      ∃ m, groupedHost.manager? n = some m ∧ m.driver.IgnoresStacks := by
    rw [hleaves]
    intro n hn
    simp only [List.mem_cons, List.not_mem_nil, or_false] at hn
    rcases hn with rfl | rfl | rfl | rfl
    · exact ⟨_, rfl, dac_ignoresStacks⟩
    · exact ⟨_, rfl, refuser_ignoresStacks⟩
    · exact ⟨_, rfl, dac_ignoresStacks⟩
    · exact ⟨_, rfl, refuser_ignoresStacks⟩
  have hn : (groupedHost.tree 3).NoEmptyStack := by
    rw [hnested]
    exact .stack 3 (by simp) (by simpa using
      ⟨.leaf 0, .stack 2 (by simp) (by simpa using ⟨.leaf 1, .leaf 0⟩), .leaf 1⟩)
  have hn' : (groupedHost.tree 4).NoEmptyStack := by
    rw [hflat]
    exact .stack 4 (by simp) (by simpa using ⟨.leaf 0, .leaf 1, .leaf 0, .leaf 1⟩)
  obtain ⟨hops, -, hsame⟩ := stacks_are_transparent (d := .guest []) ht
  obtain ⟨rs, -, -, hlog⟩ := hops .setSocket (by decide)
  obtain ⟨hops', hquestions⟩ := hsame 4 ht' hleaves' hi
  refine ⟨rfl, ?_, (hops' .setSocket (by decide)).1, hquestions hn hn' .model⟩
  rw [hlog, hleaves]
  rfl

end Engine

end Confinement
